import ArithVM.Proofs.Token.Seam

/-!
# Spacing — blanks between tokens

Blanks may be put in front of a token and behind it.  The token keeps its kind and what a listing
shows of it, and so do all others; they only stand elsewhere.  A comment at the end of the source
takes in the blanks behind it, and so does a string that nothing closes; of the string a listing
shows what is wrong with it and not its text.
-/

namespace ArithVM

open Text

/-! ## What tokens say -/

/-- What a token says wherever it stands: its kind and what a listing shows of it. -/
def Token.content (t : Token) : TokenKind × String :=
  (t.kind, t.lexeme)

namespace Tokens

def contents (tokens : Tokens) : List (TokenKind × String) :=
  tokens.toList.map Token.content

theorem contents_append (past : List Token) (tokens : Tokens) :
    contents ⟨past ++ tokens.body, tokens.finish⟩ = past.map Token.content ++ tokens.contents := by
  rw [contents, toList, List.append_assoc, List.map_append]
  rfl

theorem contents_cons (t : Token) (tokens : Tokens) :
    contents ⟨t :: tokens.body, tokens.finish⟩ = t.content :: tokens.contents :=
  contents_append [t] tokens

end Tokens

namespace Layout

variable {before before' ahead : List Char} {tokens tokens' : Tokens}

/-- What the tokens of a text say does not depend on what stands in front of the text. -/
theorem contents_eq (h : Layout before ahead tokens) (h' : Layout before' ahead tokens') :
    tokens.contents = tokens'.contents := by
  have hbase (front : List Char) :
      (Cursor.behind front ahead).tokens.contents = (Cursor.behind [] ahead).tokens.contents := by
    have hmoved := (layout_tokens [] ahead).move front
    rw [List.append_nil] at hmoved
    rw [← hmoved.eq_tokens]
    simp only [Tokens.contents, Tokens.toList, List.map_append, List.map_map, List.map_singleton]
    rfl
  rw [h.eq_tokens, h'.eq_tokens, hbase before, hbase before']

/-- With another gap in front the tokens say the same. -/
theorem exists_of_trivia {gap rest : List Char} (hgap : Trivia gap rest)
    (h : Layout before' rest tokens) (before : List Char) :
    ∃ tokens', Layout before (gap ++ rest) tokens' ∧ tokens'.contents = tokens.contents := by
  have hrest := layout_tokens (before ++ gap) rest
  exact ⟨_, hrest.of_trivia hgap, hrest.contents_eq h⟩

/-- The passage in front of a token, and the layout that begins with the token. -/
theorem exists_cut (h : Layout before ahead tokens) {t : Token} (ht : t ∈ tokens.body) :
    ∃ (text rest : List Char) (past body : List Token), ahead = text ++ rest ∧
      tokens.body = past ++ t :: body ∧ Passage before text past rest ∧
      Layout (before ++ text) rest ⟨t :: body, tokens.finish⟩ := by
  induction h with
  | finish => simp at ht
  | @token before gap lexeme tokens hgap hstart hfirst hrest ih =>
    obtain rfl | ht := List.mem_cons.1 ht
    · refine ⟨[], _, [], tokens.body, rfl, rfl, .nil, ?_⟩
      rw [List.append_nil]
      exact .token hgap hstart hfirst hrest
    · obtain ⟨text, rest, past, body, heq, hbody, hpassage, hlater⟩ := ih ht
      refine ⟨gap ++ (lexeme.text ++ text), rest, lexeme.token (before ++ gap) :: past, body, ?_,
        ?_, .token hgap hstart hfirst heq hpassage, ?_⟩
      · rw [heq, List.append_assoc, List.append_assoc]
      · rw [hbody, List.cons_append]
      · simpa only [List.append_assoc] using hlater

end Layout

/-! ## Blanks -/

section Blanks

variable {blanks : List Char}

theorem Departs.insert (hblanks : ∀ c ∈ blanks, isSeparator c) (common rest : List Char) :
    Departs (common ++ rest) (common ++ (blanks ++ rest)) := by
  cases blanks with
  | nil => exact ⟨common ++ rest, [], List.prefix_refl _, by simp, nofun⟩
  | cons c cs =>
    apply Departs.behind
    rintro d ⟨⟩
    exact hblanks c List.mem_cons_self

/-- At the end of the source blanks belong to the last gap, be it to its comment. -/
theorem Trivia.append_blanks {gap : List Char} (h : Trivia gap [])
    (hblanks : ∀ c ∈ blanks, isSeparator c) : Trivia (gap ++ blanks) [] := by
  generalize hrest : ([] : List Char) = rest at h
  induction h with
  | nil => exact .of_forall_isSeparator hblanks _
  | separator hc _ ih => exact .separator hc (ih hrest)
  | @comment body cs rest hbody hend _ ih =>
    subst hrest
    have hmore := ih rfl
    rw [List.append_nil] at hend
    obtain rfl | ⟨more, rfl⟩ := hend
    · -- The comment goes on up to the first line feed among the blanks.
      have hcut := List.takeWhile_append_dropWhile (p := (· ≠ '\n')) (l := blanks)
      have hline : '\n' ∉ body ++ blanks.takeWhile (· ≠ '\n') := by
        rw [List.mem_append]
        exact not_or.2 ⟨hbody, notMem_takeWhile blanks⟩
      have htail : ∀ c ∈ blanks.dropWhile (· ≠ '\n'), isSeparator c :=
        fun c hc => hblanks c ((List.dropWhile_suffix _).mem hc)
      have hcomment := Trivia.comment hline (by simpa using endsLine_dropWhile blanks)
        (.of_forall_isSeparator htail [])
      rw [List.append_assoc, hcut] at hcomment
      simpa using hcomment
    · rw [List.cons_append, List.cons_append, List.append_assoc]
      refine .comment hbody ?_ hmore
      exact .inr ⟨more ++ blanks, by simp⟩

namespace Layout

variable {before ahead : List Char} {tokens : Tokens} {t : Token} {p : Nat}

/-- There is a place in the text, `p` bytes from the beginning, where blanks leave what the tokens
    say. -/
def TakesBlanks (blanks before ahead : List Char) (p : Nat) (tokens : Tokens) : Prop :=
  ∃ (common rest : List Char) (tokens' : Tokens), ahead = common ++ rest ∧
    byteLength (before ++ common) = p ∧ Layout before (common ++ (blanks ++ rest)) tokens' ∧
    tokens'.contents = tokens.contents

section First

variable {gap : List Char} {lexeme : Lexeme} {later : Tokens}
  (hgap : Trivia gap (lexeme.text ++ lexeme.rest))
  (hstart : startsTrivia (lexeme.text ++ lexeme.rest) = false)
  (hfirst : Lexeme.first? (lexeme.text ++ lexeme.rest) = some lexeme)
  (hrest : Layout (before ++ gap ++ lexeme.text) lexeme.rest later)
  (hblanks : ∀ c ∈ blanks, isSeparator c)

include hgap hstart hfirst hrest hblanks

/-- In front of a token blanks go on with the gap. -/
theorem takesBlanks_in_front :
    TakesBlanks blanks before (gap ++ (lexeme.text ++ lexeme.rest)) (byteLength (before ++ gap))
      ⟨lexeme.token (before ++ gap) :: later.body, later.finish⟩ := by
  have hne : lexeme.text ++ lexeme.rest ≠ [] :=
    List.append_ne_nil_of_left_ne_nil (Lexeme.first?_text_ne_nil hfirst) _
  have hgap' : Trivia (gap ++ blanks) (lexeme.text ++ lexeme.rest) :=
    (hgap.of_startsTrivia hne hstart _).append (.of_forall_isSeparator hblanks _)
  have htoken := @Layout.token (before ++ gap) [] lexeme later .nil hstart hfirst
    (by rwa [List.append_nil])
  rw [List.append_nil] at htoken
  obtain ⟨tokens, hlayout, hcontents⟩ := htoken.exists_of_trivia hgap' before
  rw [List.append_assoc] at hlayout
  exact ⟨gap, _, tokens, rfl, rfl, hlayout, hcontents⟩

/-- Behind a token blanks are a gap of their own. -/
theorem takesBlanks_behind (hclosed : (lexeme.token (before ++ gap)).Closed) :
    TakesBlanks blanks before (gap ++ (lexeme.text ++ lexeme.rest))
      (byteLength (before ++ gap ++ lexeme.text))
      ⟨lexeme.token (before ++ gap) :: later.body, later.finish⟩ := by
  have hdeparts : Departs lexeme.rest (blanks ++ lexeme.rest) := .insert hblanks [] lexeme.rest
  obtain ⟨hgap', hstart', hlexeme⟩ :=
    Lexeme.stays_of_departs hgap hstart hfirst hclosed hdeparts
  obtain ⟨tokens, hlayout, hcontents⟩ := hrest.exists_of_trivia
    (.of_forall_isSeparator hblanks lexeme.rest) (before ++ gap ++ lexeme.text)
  have hwhole := @Layout.token before gap { lexeme with rest := blanks ++ lexeme.rest } tokens
    hgap' hstart' hlexeme hlayout
  rw [← List.append_assoc gap] at hwhole
  refine ⟨gap ++ lexeme.text, lexeme.rest, _, (List.append_assoc ..).symm, ?_, hwhole, ?_⟩
  · rw [List.append_assoc]
  · rw [Tokens.contents_cons, Tokens.contents_cons, hcontents]
    rfl

/-- A string that nothing closes takes in the blanks behind it. -/
theorem takesBlanks_behind_open (hopen : ¬ (lexeme.token (before ++ gap)).Closed) :
    TakesBlanks blanks before (gap ++ (lexeme.text ++ lexeme.rest))
      (byteLength (before ++ gap ++ lexeme.text))
      ⟨lexeme.token (before ++ gap) :: later.body, later.finish⟩ := by
  obtain ⟨body, hbody, rfl⟩ := Lexeme.eq_of_unterminated hfirst (not_not.1 hopen)
  have hquote : '"' ∉ body ++ blanks := by
    rw [List.mem_append]
    exact not_or.2 ⟨hbody, fun h => absurd (hblanks _ h) (by decide)⟩
  have hfirst' : Lexeme.first? ('"' :: (body ++ blanks) ++ []) =
      some ⟨.invalid .unterminatedString, '"' :: (body ++ blanks), []⟩ := by
    rw [List.append_nil]
    exact Lexeme.first?_of_open hquote
  have hwhole : Layout before (gap ++ ('"' :: (body ++ blanks) ++ [])) _ :=
    @Layout.token before gap ⟨_, '"' :: (body ++ blanks), []⟩ _
      (hgap.of_startsTrivia (List.cons_ne_nil _ _) hstart _) rfl hfirst' (.finish .nil)
  have htext : gap ++ ('"' :: (body ++ blanks) ++ []) = gap ++ '"' :: body ++ (blanks ++ []) := by
    simp
  rw [htext] at hwhole
  refine ⟨gap ++ '"' :: body, [], _, by simp, by simp, hwhole, ?_⟩
  have hlater := hrest.contents_eq (@Layout.finish [] [] .nil)
  rw [Tokens.contents_cons, Tokens.contents_cons, hlater]
  rfl

end First

/-- Blanks in front of the first token and behind it. -/
theorem takesBlanks_first {body : List Token} {finish : Token}
    (h : Layout before ahead ⟨t :: body, finish⟩) (hblanks : ∀ c ∈ blanks, isSeparator c)
    (hp : p = t.span.start ∨ p = t.span.stop) :
    TakesBlanks blanks before ahead p ⟨t :: body, finish⟩ := by
  cases h with
  | @token _ gap lexeme later hgap hstart hfirst hrest =>
    obtain rfl | rfl := hp
    · exact takesBlanks_in_front hgap hstart hfirst hrest hblanks
    · by_cases hclosed : (lexeme.token (before ++ gap)).Closed
      · exact takesBlanks_behind hgap hstart hfirst hrest hblanks hclosed
      · exact takesBlanks_behind_open hgap hstart hfirst hrest hblanks hclosed

theorem ahead_ne_nil {body : List Token} {finish : Token}
    (h : Layout before ahead ⟨t :: body, finish⟩) : ahead ≠ [] := by
  cases h with
  | token _ _ hfirst =>
    have hne := Lexeme.first?_text_ne_nil hfirst
    simp [hne]

/-- Blanks in front of any token but the end, and behind it. -/
theorem takesBlanks_body (h : Layout before ahead tokens) (ht : t ∈ tokens.body)
    (hblanks : ∀ c ∈ blanks, isSeparator c) (hp : p = t.span.start ∨ p = t.span.stop) :
    TakesBlanks blanks before ahead p tokens := by
  obtain ⟨text, rest, past, body, rfl, hbody, hpassage, hlater⟩ := h.exists_cut ht
  have hclosed := hpassage.closed hlater.ahead_ne_nil
  obtain ⟨common, rest, tokens', rfl, hplace, hlayout, hcontents⟩ :=
    takesBlanks_first hlater hblanks hp
  -- What stands in front of the token is as it was, for it sees no change up to the blanks.
  have hpast := hpassage.of_departs hclosed (.insert hblanks common rest)
  refine ⟨text ++ common, rest, ⟨past ++ tokens'.body, tokens'.finish⟩, ?_, ?_, ?_, ?_⟩
  · rw [List.append_assoc]
  · rw [← List.append_assoc, hplace]
  · rw [List.append_assoc]
    exact hpast.append hlayout
  · rw [Tokens.contents_append, hcontents, ← Tokens.contents_append, ← hbody]

/-- Blanks at the end. -/
theorem takesBlanks_finish (h : Layout before ahead tokens)
    (hblanks : ∀ c ∈ blanks, isSeparator c) :
    TakesBlanks blanks before ahead (byteLength (before ++ ahead)) tokens := by
  by_cases hclosed : ∀ u ∈ tokens.body, u.Closed
  · obtain ⟨text, gap, rfl, hpassage, hgap⟩ := h.exists_passage
    have hdeparts := Departs.insert hblanks gap []
    rw [List.append_nil, List.append_nil] at hdeparts
    have hlayout := (hpassage.of_departs hclosed hdeparts).append
      (.finish (hgap.append_blanks hblanks))
    refine ⟨text ++ gap, [], ⟨tokens.body ++ [], .finish (before ++ text ++ (gap ++ blanks))⟩,
      (List.append_nil _).symm, rfl, ?_, ?_⟩
    · rw [List.append_nil, List.append_assoc]
      exact hlayout
    · rw [List.append_nil, Tokens.contents, Tokens.contents, Tokens.toList, Tokens.toList,
        List.map_append, List.map_append, h.finish_eq]
      rfl
  · -- A string that nothing closes ends where the text does.
    obtain ⟨u, hu, hopen⟩ : ∃ u ∈ tokens.body, ¬ u.Closed := by
      simpa using hclosed
    obtain ⟨-, front, lexeme, -, -, hsource, -, hfirst, rfl, -⟩ := h.exists_lexeme hu
    obtain ⟨body, -, rfl⟩ := Lexeme.eq_of_unterminated hfirst (not_not.1 hopen)
    apply h.takesBlanks_body hu hblanks
    right
    rw [hsource, List.append_nil]
    rfl

theorem takesBlanks (h : Layout before ahead tokens) (ht : t ∈ tokens.toList)
    (hblanks : ∀ c ∈ blanks, isSeparator c) (hp : p = t.span.start ∨ p = t.span.stop) :
    TakesBlanks blanks before ahead p tokens := by
  obtain ht | ht := List.mem_append.1 ht
  · exact h.takesBlanks_body ht hblanks hp
  · rw [List.mem_singleton.1 ht, h.finish_eq] at hp
    obtain rfl | rfl := hp
    · exact h.takesBlanks_finish hblanks
    · exact h.takesBlanks_finish hblanks

end Layout

/-- In front of a token of a source and behind it there is a place where blanks leave what the
    tokens say. -/
theorem Tokens.exists_place_for_blanks {source blanks : String} {t : Token} {p : Nat}
    (ht : t ∈ (ofSource source).toList) (hblanks : ∀ c ∈ blanks.toList, isSeparator c)
    (hp : p = t.span.start ∨ p = t.span.stop) :
    ∃ front back, source = front ++ back ∧ front.utf8ByteSize = p ∧
      (ofSource (front ++ blanks ++ back)).contents = (ofSource source).contents := by
  obtain ⟨common, rest, tokens', hsource, hplace, hlayout, hcontents⟩ :=
    (layout_ofSource source).takesBlanks ht hblanks hp
  have hwhole :
      Layout [] (String.ofList common ++ blanks ++ String.ofList rest).toList tokens' := by
    simpa using hlayout
  refine ⟨.ofList common, .ofList rest, ?_, ?_, ?_⟩
  · rw [← String.ofList_append, ← hsource, String.ofList_toList]
  · rw [← byteLength_toList, String.toList_ofList]
    exact hplace
  · rw [← hcontents, hwhole.eq_ofSource]

end Blanks

end ArithVM
