import ArithVM.Proofs.Token.Layout
import ArithVM.Proofs.Token.Pattern

/-!
# Maximal munch — which tokens a source has

A token is met at the beginning of a source, behind another token, and behind blanks and comments.
At every such place the longest token that stands there is taken; a comment is passed over, and what
starts no token is a token of its own kind.
-/

namespace ArithVM

open Text

/-- A token may start between `before` and `rest`. -/
inductive MayStart (source : String) : List Char → List Char → Prop where
  | start : MayStart source [] source.toList
  | token {t : Token} {before rest : List Char} (ht : t ∈ (Tokens.ofSource source).body)
    (hsource : source.toList = before ++ rest) (hstop : byteLength before = t.span.stop) :
    MayStart source before rest
  | separator {c : Char} {before rest : List Char} (h : MayStart source before (c :: rest))
    (hc : isSeparator c) : MayStart source (before ++ [c]) rest
  | comment {before body rest : List Char}
    (h : MayStart source before ('/' :: '/' :: (body ++ rest))) (hbody : '\n' ∉ body)
    (hend : EndsLine rest) : MayStart source (before ++ '/' :: '/' :: body) rest

/-! ## Comments -/

theorem takeWhile_of_endsLine {body rest : List Char} (hbody : '\n' ∉ body) (hend : EndsLine rest) :
    (body ++ rest).takeWhile (· ≠ '\n') = body := by
  have hne := forall_ne_of_notMem hbody
  obtain rfl | ⟨more, rfl⟩ := hend
  · rw [List.append_nil]
    exact List.takeWhile_eq_self_iff.2 hne
  · exact (takeWhile_append_cons hne (decide_eq_false (not_not.2 rfl)) more).1

/-- A line has one end. -/
theorem eq_of_endsLine {body body' rest rest' : List Char} (hbody : '\n' ∉ body)
    (hbody' : '\n' ∉ body') (hend : EndsLine rest) (hend' : EndsLine rest')
    (h : body ++ rest = body' ++ rest') : body = body' ∧ rest = rest' := by
  have hfront := takeWhile_of_endsLine hbody hend
  rw [h, takeWhile_of_endsLine hbody' hend'] at hfront
  subst hfront
  exact ⟨rfl, List.append_cancel_left h⟩

namespace Trivia

variable {gap rest : List Char}

theorem of_separator {c : Char} (h : Trivia (c :: gap) rest) (hc : isSeparator c) :
    Trivia gap rest := by
  cases h with
  | separator _ hcs => exact hcs
  | comment => contradiction

theorem of_comment {body following : List Char} (h : Trivia gap following) (hgap : gap ≠ [])
    (heq : gap ++ following = '/' :: '/' :: (body ++ rest)) (hbody : '\n' ∉ body)
    (hend : EndsLine rest) :
    ∃ more, gap = '/' :: '/' :: (body ++ more) ∧ rest = more ++ following ∧
      Trivia more following := by
  cases h with
  | nil => contradiction
  | separator hc =>
    -- A slash is no blank.
    rw [List.cons_append, List.cons.injEq] at heq
    rw [heq.1] at hc
    contradiction
  | @comment body' more _ hbody' hend' hmore =>
    simp only [List.cons_append, List.cons.injEq, true_and, List.append_assoc] at heq
    obtain ⟨rfl, rfl⟩ := eq_of_endsLine hbody' hbody hend' hend heq
    exact ⟨more, rfl, rfl, hmore⟩

end Trivia

/-! ## Layouts seen from a place in the source -/

namespace Layout

variable {before ahead rest : List Char} {tokens : Tokens}

/-- Behind every token the layout goes on. -/
theorem exists_lexeme (h : Layout before ahead tokens) {t : Token} (ht : t ∈ tokens.body) :
    ∃ (past : List Token) (front : List Char) (lexeme : Lexeme) (later : Tokens),
      tokens.body = past ++ t :: later.body ∧
      before ++ ahead = front ++ (lexeme.text ++ lexeme.rest) ∧
      startsTrivia (lexeme.text ++ lexeme.rest) = false ∧
      Lexeme.first? (lexeme.text ++ lexeme.rest) = some lexeme ∧ t = lexeme.token front ∧
      Layout (front ++ lexeme.text) lexeme.rest later := by
  induction h with
  | finish => simp at ht
  | @token before gap lexeme tokens _ hstart hfirst hrest ih =>
    obtain rfl | ht := List.mem_cons.1 ht
    · refine ⟨[], before ++ gap, lexeme, tokens, rfl, ?_, hstart, hfirst, rfl, hrest⟩
      rw [List.append_assoc]
    · obtain ⟨past, front, lexeme', later, hbody, hsource, hlater⟩ := ih ht
      refine ⟨lexeme.token (before ++ gap) :: past, front, lexeme', later, ?_, ?_, hlater⟩
      · rw [hbody]
        rfl
      · rw [← hsource]
        simp only [List.append_assoc]

/-- The gap at the front of a layout, of which any part may be passed over. -/
theorem exists_gap (h : Layout before ahead tokens) :
    ∃ gap following, ahead = gap ++ following ∧ Trivia gap following ∧
      startsTrivia following = false ∧
      ∀ front more, before ++ gap = front ++ more → Trivia more following →
        Layout front (more ++ following) tokens := by
  cases h with
  | finish hgap =>
    refine ⟨ahead, [], (List.append_nil _).symm, hgap, rfl, ?_⟩
    intro front more heq hmore
    rw [heq, List.append_nil]
    exact .finish hmore
  | @token _ gap lexeme tokens hgap hstart hfirst hrest =>
    refine ⟨gap, _, rfl, hgap, hstart, ?_⟩
    intro front more heq hmore
    rw [heq] at hrest ⊢
    exact .token hmore hstart hfirst hrest

theorem of_separator {c : Char} (h : Layout before (c :: rest) tokens) (hc : isSeparator c) :
    Layout (before ++ [c]) rest tokens := by
  obtain ⟨gap, following, hahead, hgap, hstart, hskip⟩ := h.exists_gap
  cases gap with
  | nil =>
    -- Behind the whole gap no blank follows.
    have hgap : Trivia [c] rest := .separator hc .nil
    have hstarts : startsTrivia (c :: rest) = true := hgap.startsTrivia (List.cons_ne_nil _ _)
    rw [← List.nil_append following, ← hahead, hstarts] at hstart
    contradiction
  | cons d gap =>
    rw [List.cons_append, List.cons.injEq] at hahead
    obtain ⟨rfl, rfl⟩ := hahead
    exact hskip _ _ (by simp) (hgap.of_separator hc)

theorem of_comment {body : List Char} (h : Layout before ('/' :: '/' :: (body ++ rest)) tokens)
    (hbody : '\n' ∉ body) (hend : EndsLine rest) :
    Layout (before ++ '/' :: '/' :: body) rest tokens := by
  obtain ⟨gap, following, hahead, hgap, hstart, hskip⟩ := h.exists_gap
  have hne : gap ≠ [] := by
    rintro rfl
    rw [← List.nil_append following, ← hahead] at hstart
    contradiction
  obtain ⟨more, rfl, rfl, hmore⟩ := hgap.of_comment hne hahead.symm hbody hend
  exact hskip _ _ (by simp) hmore

theorem exists_start (h : Layout before ahead tokens) (hahead : ahead ≠ [])
    (hstart : startsTrivia ahead = false) :
    ∃ t ∈ tokens.body, t.span.start = byteLength before := by
  cases h with
  | finish hgap =>
    have hstarts := hgap.startsTrivia hahead
    rw [List.append_nil, hstart] at hstarts
    contradiction
  | @token _ gap lexeme tokens hgap =>
    by_cases hempty : gap = []
    · subst hempty
      refine ⟨_, List.mem_cons_self, ?_⟩
      show byteLength (before ++ []) = _
      rw [List.append_nil]
    · rw [hgap.startsTrivia hempty] at hstart
      contradiction

end Layout

/-- What is left of the tokens of a source at a place where one may start. -/
theorem MayStart.exists_layout {source : String} {before rest : List Char}
    (h : MayStart source before rest) :
    ∃ past tokens, (Tokens.ofSource source).body = past ++ tokens.body ∧
      Layout before rest tokens ∧ ∀ t ∈ past, t.span.stop ≤ byteLength before := by
  have hsource := layout_ofSource source
  induction h with
  | start => exact ⟨[], _, rfl, hsource, by simp⟩
  | @token t before rest ht heq hstop =>
    obtain ⟨past, front, lexeme, later, hbody, hplace, -, -, rfl, hlater⟩ :=
      hsource.exists_lexeme ht
    -- The bytes in front of a place determine the place.
    have hcut := splitBytes?_eq_some_iff.2 ⟨heq, hstop⟩
    have hcut' : splitBytes? _ source.toList = some (front ++ lexeme.text, lexeme.rest) :=
      splitBytes?_eq_some_iff.2 ⟨by rw [List.append_assoc]; exact hplace, rfl⟩
    cases hcut'.symm.trans hcut
    refine ⟨past ++ [lexeme.token front], later, by simp [hbody], hlater, ?_⟩
    have hordered := hsource.pairwise
    rw [Tokens.toList, hbody, List.append_assoc, List.cons_append] at hordered
    intro u hu
    obtain hu | hu := List.mem_append.1 hu
    · have hle : u.span.stop ≤ byteLength front :=
        (List.pairwise_append.1 hordered).2.2 u hu _ List.mem_cons_self
      rw [byteLength_append]
      omega
    · rw [List.mem_singleton.1 hu]
      exact Nat.le_refl _
  | separator _ hc ih =>
    obtain ⟨past, tokens, hbody, hlayout, hpast⟩ := ih
    refine ⟨past, tokens, hbody, hlayout.of_separator hc, ?_⟩
    intro t ht
    have hle := hpast t ht
    rw [byteLength_append]
    omega
  | comment _ hline hend ih =>
    obtain ⟨past, tokens, hbody, hlayout, hpast⟩ := ih
    refine ⟨past, tokens, hbody, hlayout.of_comment hline hend, ?_⟩
    intro t ht
    have hle := hpast t ht
    rw [byteLength_append]
    omega

/-- Two slashes where a token may start begin a comment, and no token has a part of it. -/
theorem MayStart.comment_apart {source : String} {before rest : List Char}
    (h : MayStart source before ('/' :: '/' :: rest)) :
    ∀ t ∈ (Tokens.ofSource source).body, t.span.stop ≤ byteLength before ∨
      byteLength (before ++ '/' :: '/' :: rest.takeWhile (· ≠ '\n')) ≤ t.span.start := by
  obtain ⟨past, tokens, hbody, htokens, hpast⟩ := h.exists_layout
  have hcut := List.takeWhile_append_dropWhile (p := (· ≠ '\n')) (l := rest)
  rw [← hcut] at htokens
  have hlater := htokens.of_comment (notMem_takeWhile rest) (endsLine_dropWhile rest)
  intro t ht
  rw [hbody, List.mem_append] at ht
  obtain ht | ht := ht
  · exact .inl (hpast t ht)
  · exact .inr (hlater.le_start t (List.mem_append_left _ ht))

/-- Where one may start and no gap goes on, there is a token. -/
theorem MayStart.exists_token {source : String} {before rest : List Char}
    (h : MayStart source before rest) (hrest : rest ≠ []) (hstart : startsTrivia rest = false) :
    ∃ t ∈ (Tokens.ofSource source).body, t.span.start = byteLength before := by
  obtain ⟨past, tokens, hbody, htokens, -⟩ := h.exists_layout
  obtain ⟨t, ht, hspan⟩ := htokens.exists_start hrest hstart
  refine ⟨t, ?_, hspan⟩
  rw [hbody]
  exact List.mem_append_right _ ht

/-- **Maximal munch.**  A token is the longest one that stands at its place.  A string that is
    never closed runs to the end of the source, and a character that starts no token stands alone.
    No token overlaps a comment; where no gap goes on, there is a token. -/
theorem longest_of_mem_tokens (source : String) :
    (∀ t ∈ (Tokens.ofSource source).body, ∃ before c rest,
      source.toList = before ++ c :: rest ∧
      t.span = ⟨byteLength before, byteLength (before ++ t.text.toList)⟩ ∧
      startsTrivia (c :: rest) = false ∧
      (StartsToken c → (c = '"' → '"' ∈ rest) →
        LongestMatch t.kind t.text.toList (c :: rest)) ∧
      (c = '"' → '"' ∉ rest →
        t.kind = .invalid .unterminatedString ∧ t.span.stop = byteLength source.toList) ∧
      (¬ StartsToken c → t.kind = .invalid .unexpectedCharacter ∧ t.text.toList = [c])) ∧
    (∀ before rest, MayStart source before ('/' :: '/' :: rest) →
      ∀ t ∈ (Tokens.ofSource source).body, t.span.stop ≤ byteLength before ∨
        byteLength (before ++ '/' :: '/' :: rest.takeWhile (· ≠ '\n')) ≤ t.span.start) ∧
    ∀ before c rest, MayStart source before (c :: rest) → startsTrivia (c :: rest) = false →
      ∃ t ∈ (Tokens.ofSource source).body, t.span.start = byteLength before := by
  have hlayout := layout_ofSource source
  refine ⟨?_, ?_, ?_⟩
  · intro t ht
    obtain ⟨-, before, lexeme, -, -, hsource, hstart, hfirst, rfl, -⟩ := hlayout.exists_lexeme ht
    cases hahead : lexeme.text ++ lexeme.rest with
    | nil => exact absurd (List.append_eq_nil_iff.1 hahead).1 (Lexeme.first?_text_ne_nil hfirst)
    | cons c rest =>
      rw [List.nil_append] at hsource
      rw [hahead] at hsource hstart hfirst
      refine ⟨before, c, rest, hsource, ?_, hstart, ?_, ?_, ?_⟩
      · rw [Lexeme.token, String.toList_ofList]
      · intro hstarts hclosed
        rw [Lexeme.token, String.toList_ofList]
        exact Lexeme.longestMatch_of_first? hfirst hstarts hclosed
      · rintro rfl hopen
        rw [Lexeme.first?_of_open hopen] at hfirst
        cases hfirst
        exact ⟨rfl, congrArg byteLength hsource.symm⟩
      · intro hstarts
        rw [Lexeme.first?_of_not_startsToken hstarts] at hfirst
        cases hfirst
        exact ⟨rfl, String.toList_ofList⟩
  · intro before rest hplace
    exact hplace.comment_apart
  · intro before c rest hplace hstart
    exact hplace.exists_token (List.cons_ne_nil _ _) hstart

/-- A word that begins like a reserved word, behind a symbol of two characters and a comment. -/
theorem longest_behind_comment :
    (⟨.identifier, "andy", ⟨9, 13⟩, 2⟩ : Token) ∈ (Tokens.ofSource "3.<=//é\nandy\"ü").body ∧
      LongestMatch .identifier ['a', 'n', 'd', 'y'] ['a', 'n', 'd', 'y', '"', 'ü'] ∧
      MayStart "3.<=//é\nandy\"ü" ['3', '.', '<', '=']
        ('/' :: '/' :: ['é', '\n', 'a', 'n', 'd', 'y', '"', 'ü']) ∧
      ∀ t ∈ (Tokens.ofSource "3.<=//é\nandy\"ü").body, t.span.stop ≤ 4 ∨ 8 ≤ t.span.start := by
  have hword : (⟨.identifier, "andy", ⟨9, 13⟩, 2⟩ : Token) ∈
      (Tokens.ofSource "3.<=//é\nandy\"ü").body := by
    decide +kernel
  have hsymbol : (⟨.symbol .lessEqual, "<=", ⟨2, 4⟩, 1⟩ : Token) ∈
      (Tokens.ofSource "3.<=//é\nandy\"ü").body := by
    decide +kernel
  have hplace : MayStart "3.<=//é\nandy\"ü" ['3', '.', '<', '=']
      ('/' :: '/' :: ['é', '\n', 'a', 'n', 'd', 'y', '"', 'ü']) :=
    .token hsymbol (by decide) (by decide)
  obtain ⟨hlongest, hcomment, -⟩ := longest_of_mem_tokens "3.<=//é\nandy\"ü"
  obtain ⟨before, c, rest, hsource, hspan, -, hmatch, -⟩ := hlongest _ hword
  have hcut := splitBytes?_eq_some_iff.2 ⟨hsource, (congrArg Span.start hspan).symm⟩
  have hbytes : splitBytes? 9 "3.<=//é\nandy\"ü".toList =
      some (['3', '.', '<', '=', '/', '/', 'é', '\n'], 'a' :: ['n', 'd', 'y', '"', 'ü']) := by
    decide
  cases hbytes.symm.trans hcut
  have hstarts : StartsToken 'a' := ⟨.identifier, [], .identifier rfl (by simp)⟩
  exact ⟨hword, hmatch hstarts (by decide), hplace, hcomment _ _ hplace⟩

end ArithVM
