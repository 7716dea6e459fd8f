import ArithVM.Proofs.Token.Departure
import ArithVM.Proofs.Token.Lines

/-!
# Seams — the tokens of two texts put together

A source can be cut behind any of its tokens.  What stands in front of the cut is a passage of gaps
and tokens, and stays one if something else follows that no token goes on into.  A line feed is
always such a thing, so the tokens of two texts with a line feed between them are those of the first
and those of the second, moved.
-/

namespace ArithVM

open Text

/-! ## Gaps -/

namespace Trivia

variable {gap rest : List Char}

theorem of_forall_isSeparator {blanks : List Char} (h : ∀ c ∈ blanks, isSeparator c)
    (rest : List Char) : Trivia blanks rest := by
  induction blanks with
  | nil => exact .nil
  | cons c cs ih =>
    obtain ⟨hc, hcs⟩ := List.forall_mem_cons.1 h
    exact .separator hc (ih hcs)

/-- Of what follows a gap it matters only whether it ends a comment. -/
theorem congr {rest' : List Char} (h : Trivia gap rest) (hend : EndsLine rest → EndsLine rest') :
    Trivia gap rest' := by
  induction h with
  | nil => exact .nil
  | separator hc _ ih => exact .separator hc (ih hend)
  | @comment body cs rest hbody hline _ ih =>
    refine .comment hbody ?_ (ih hend)
    obtain hnil | ⟨more, hmore⟩ := hline
    · -- The comment was the last thing in the gap.
      obtain ⟨rfl, rfl⟩ := List.append_eq_nil_iff.1 hnil
      exact hend (.inl rfl)
    · cases cs with
      | nil => exact hend (.inr ⟨more, hmore⟩)
      | cons c cs =>
        rw [List.cons_append, List.cons.injEq] at hmore
        rw [hmore.1]
        exact .inr ⟨_, List.cons_append⟩

theorem append {more : List Char} (h : Trivia gap (more ++ rest)) (hmore : Trivia more rest) :
    Trivia (gap ++ more) rest := by
  generalize hrest : more ++ rest = rest' at h
  induction h with
  | nil => exact hmore
  | separator hc _ ih => exact .separator hc (ih hrest)
  | comment hbody hend _ ih =>
    subst hrest
    rw [List.cons_append, List.cons_append, List.append_assoc]
    refine .comment hbody ?_ (ih rfl)
    rwa [List.append_assoc]

/-- A gap is passed over as a whole. -/
theorem splitTrivia_eq (h : Trivia gap rest) (hstart : ArithVM.startsTrivia rest = false) :
    splitTrivia (gap ++ rest) = (gap, rest) := by
  induction h with
  | @nil rest =>
    obtain ⟨hgap, -⟩ := trivia_splitTrivia rest
    have happend := splitTrivia_append rest
    have hnil : (splitTrivia rest).1 = [] := by
      by_contra hne
      have hstarts := hgap.startsTrivia hne
      rw [happend, hstart] at hstarts
      contradiction
    rw [hnil, List.nil_append] at happend
    exact Prod.ext hnil happend
  | @separator c cs rest hc _ ih =>
    rw [List.cons_append, splitTrivia, if_pos hc, ih hstart]
    -- A separator begins no comment.
    rintro _ rfl
    contradiction
  | @comment body cs rest hbody hend _ ih =>
    have htake := takeWhile_of_endsLine hbody hend
    have hdrop := List.takeWhile_append_dropWhile (p := (· ≠ '\n')) (l := body ++ (cs ++ rest))
    rw [htake] at hdrop
    rw [List.cons_append, List.cons_append, List.append_assoc, splitTrivia, htake,
      List.append_cancel_left hdrop, ih hstart]
    rfl

end Trivia

theorem not_endsLine_of_startsTrivia {cs : List Char} (hcs : cs ≠ [])
    (hstart : startsTrivia cs = false) : ¬ EndsLine cs := by
  rintro (rfl | ⟨more, rfl⟩)
  · contradiction
  · contradiction

/-- In front of a token a gap is one whatever follows it. -/
theorem Trivia.of_startsTrivia {gap cs : List Char} (h : Trivia gap cs) (hcs : cs ≠ [])
    (hstart : ArithVM.startsTrivia cs = false) (rest : List Char) : Trivia gap rest :=
  h.congr fun hend => absurd hend (not_endsLine_of_startsTrivia hcs hstart)

theorem startsTrivia_cons_eq_false_iff {c : Char} {cs : List Char} :
    startsTrivia (c :: cs) = false ↔ isSeparator c = false ∧ ¬ ['/', '/'] <+: c :: cs := by
  unfold startsTrivia
  split
  next more heq =>
    rw [heq]
    simp
  next hslash heq =>
    cases heq
    have hfront : ¬ ['/', '/'] <+: c :: cs := by
      rintro ⟨more, hmore⟩
      cases hmore
      exact hslash more rfl rfl
    simp [hfront]
  next heq => contradiction

/-- What starts a token starts one still if something else follows it. -/
theorem startsTrivia_of_departs {text rest rest' : List Char} (htext : text ≠ [])
    (h : Departs rest rest') (hstart : startsTrivia (text ++ rest) = false) :
    startsTrivia (text ++ rest') = false := by
  obtain ⟨c, tail, rfl⟩ := List.exists_cons_of_ne_nil htext
  have hdeparts := h.append (c :: tail)
  rw [List.cons_append] at hstart ⊢
  obtain ⟨hc, hslashes⟩ := startsTrivia_cons_eq_false_iff.1 hstart
  refine startsTrivia_cons_eq_false_iff.2 ⟨hc, fun hfront => hslashes ?_⟩
  have hslash : ∀ c ∈ ['/', '/'], isSeparator c = false :=
    List.forall_mem_cons.2 ⟨rfl, List.forall_mem_singleton.2 rfl⟩
  exact hdeparts.isPrefix hslash hfront

/-- A token with the gap in front of it stays what it is if something else follows, unless it is a
    string that nothing closes. -/
theorem Lexeme.stays_of_departs {gap rest' : List Char} {lexeme : Lexeme}
    (hgap : Trivia gap (lexeme.text ++ lexeme.rest))
    (hstart : startsTrivia (lexeme.text ++ lexeme.rest) = false)
    (hfirst : first? (lexeme.text ++ lexeme.rest) = some lexeme)
    (hclosed : lexeme.kind ≠ .invalid .unterminatedString) (hrest : Departs lexeme.rest rest') :
    Trivia gap (lexeme.text ++ rest') ∧ startsTrivia (lexeme.text ++ rest') = false ∧
      first? (lexeme.text ++ rest') = some { lexeme with rest := rest' } := by
  have hne := first?_text_ne_nil hfirst
  exact ⟨hgap.of_startsTrivia (List.append_ne_nil_of_left_ne_nil hne _) hstart _,
    startsTrivia_of_departs hne hrest hstart, first?_of_departs hfirst hclosed hrest⟩

/-! ## The layout of a text -/

namespace Layout

variable {before ahead gap rest : List Char} {tokens : Tokens}

/-- A text has one layout, the one that scanning finds. -/
theorem eq_tokens (h : Layout before ahead tokens) :
    tokens = (Cursor.behind before ahead).tokens := by
  induction h with
  | @finish before gap hgap =>
    have hsplit := hgap.splitTrivia_eq rfl
    rw [List.append_nil] at hsplit
    have hfirst : Lexeme.first? (splitTrivia gap).2 = none := by rw [hsplit]; rfl
    rw [Cursor.tokens]
    simp only [Cursor.scan_behind_of_none hfirst]
    rw [dif_pos (show (Token.finish _).kind = .endOfInput from rfl), hsplit]
  | @token before gap lexeme tokens hgap hstart hfirst hrest ih =>
    have hsplit := hgap.splitTrivia_eq hstart
    have hfirst' : Lexeme.first? (splitTrivia (gap ++ (lexeme.text ++ lexeme.rest))).2 =
        some lexeme := by rw [hsplit, hfirst]
    rw [Cursor.tokens]
    simp only [Cursor.scan_behind_of_some hfirst']
    rw [dif_neg (show (lexeme.token _).kind ≠ .endOfInput from Lexeme.kind_ne_endOfInput hfirst),
      hsplit, ← ih]

theorem eq_ofSource {source : String} (h : Layout [] source.toList tokens) :
    tokens = Tokens.ofSource source :=
  h.eq_tokens

/-- A gap in front changes only what is in front. -/
theorem of_trivia (hgap : Trivia gap rest) (h : Layout (before ++ gap) rest tokens) :
    Layout before (gap ++ rest) tokens := by
  cases h with
  | @finish _ gap' hgap' =>
    rw [List.append_assoc]
    rw [← List.append_nil rest] at hgap
    exact .finish (hgap.append hgap')
  | @token _ gap' lexeme tokens hgap' hstart hfirst hrest =>
    have hwhole := hgap.append hgap'
    rw [List.append_assoc before] at hrest ⊢
    rw [← List.append_assoc gap]
    exact .token hwhole hstart hfirst hrest

end Layout

/-! ## Passages -/

/-- Behind `before`, the text is gaps and these tokens up to the end of the last of them, and `rest`
    follows. -/
inductive Passage : List Char → List Char → List Token → List Char → Prop where
  | nil {before rest : List Char} : Passage before [] [] rest
  | token {before gap text rest : List Char} {lexeme : Lexeme} {past : List Token}
    (hgap : Trivia gap (lexeme.text ++ lexeme.rest))
    (hstart : startsTrivia (lexeme.text ++ lexeme.rest) = false)
    (hfirst : Lexeme.first? (lexeme.text ++ lexeme.rest) = some lexeme)
    (hrest : lexeme.rest = text ++ rest)
    (hpast : Passage (before ++ gap ++ lexeme.text) text past rest) :
    Passage before (gap ++ (lexeme.text ++ text)) (lexeme.token (before ++ gap) :: past) rest

/-- Something closes the token if it is a string. -/
def Token.Closed (t : Token) : Prop :=
  t.kind ≠ .invalid .unterminatedString

instance (t : Token) : Decidable t.Closed :=
  inferInstanceAs (Decidable (_ ≠ _))

/-- A string that nothing closes goes on to the end, without another quote. -/
theorem Lexeme.eq_of_unterminated {cs : List Char} {lexeme : Lexeme}
    (h : first? cs = some lexeme) (hkind : lexeme.kind = .invalid .unterminatedString) :
    ∃ body, '"' ∉ body ∧ lexeme = ⟨.invalid .unterminatedString, '"' :: body, []⟩ := by
  obtain ⟨c, cs, rfl, hfirst⟩ := exists_first_of_first? h
  cases hfirst with
  | word =>
    simp only [word] at hkind
    split at hkind <;> contradiction
  | number =>
    rw [kind_number] at hkind
    contradiction
  | string =>
    by_cases hquote : '"' ∈ cs
    · obtain ⟨body, rest, rfl, hbody⟩ := List.eq_append_cons_of_mem hquote
      rw [string_of_closed hbody] at hkind
      contradiction
    · exact ⟨cs, hquote, string_of_open hquote⟩
  | symbol => contradiction
  | stray => simp at hkind

namespace Passage

variable {before text rest : List Char} {past : List Token}

/-- A passage goes on as the layout that follows it. -/
theorem append (h : Passage before text past rest) {tokens : Tokens}
    (hrest : Layout (before ++ text) rest tokens) :
    Layout before (text ++ rest) ⟨past ++ tokens.body, tokens.finish⟩ := by
  induction h with
  | nil =>
    rw [List.append_nil] at hrest
    exact hrest
  | @token before gap text rest lexeme past hgap hstart hfirst heq _ ih =>
    have htail := ih (by simpa only [List.append_assoc] using hrest)
    rw [← heq] at htail
    rw [List.append_assoc, List.append_assoc, ← heq]
    exact .token hgap hstart hfirst htail

/-- A string that nothing closes has nothing behind it. -/
theorem closed (h : Passage before text past rest) (hrest : rest ≠ []) : ∀ t ∈ past, t.Closed := by
  induction h with
  | nil => exact List.forall_mem_nil _
  | token hgap hstart hfirst heq _ ih =>
    refine List.forall_mem_cons.2 ⟨?_, ih hrest⟩
    intro hkind
    obtain ⟨body, -, rfl⟩ := Lexeme.eq_of_unterminated hfirst hkind
    exact hrest (List.append_eq_nil_iff.1 heq.symm).2

/-- A passage does not depend on what follows it, up to a separator. -/
theorem of_departs (h : Passage before text past rest) {rest' : List Char}
    (hclosed : ∀ t ∈ past, t.Closed) (hrest : Departs rest rest') :
    Passage before text past rest' := by
  induction h with
  | nil => exact .nil
  | @token before gap text rest lexeme past hgap hstart hfirst heq _ ih =>
    obtain ⟨ht, hpast⟩ := List.forall_mem_cons.1 hclosed
    have hdeparts : Departs lexeme.rest (text ++ rest') := by
      rw [heq]
      exact hrest.append text
    obtain ⟨hgap', hstart', hlexeme⟩ := Lexeme.stays_of_departs hgap hstart hfirst ht hdeparts
    -- The lexeme is the same, only with the new text behind it.
    exact @Passage.token before gap text rest' { lexeme with rest := text ++ rest' } past
      hgap' hstart' hlexeme rfl (ih hpast hrest)

end Passage

namespace Layout

variable {before ahead : List Char} {tokens : Tokens}

/-- A layout is the passage of its tokens, with a last gap behind it. -/
theorem exists_passage (h : Layout before ahead tokens) :
    ∃ text gap, ahead = text ++ gap ∧ Passage before text tokens.body gap ∧ Trivia gap [] := by
  induction h with
  | @finish before gap hgap => exact ⟨[], gap, rfl, .nil, hgap⟩
  | @token before gap lexeme tokens hgap hstart hfirst _ ih =>
    obtain ⟨text, last, heq, hpassage, hlast⟩ := ih
    refine ⟨gap ++ (lexeme.text ++ text), last, ?_, .token hgap hstart hfirst heq hpassage, hlast⟩
    rw [heq, List.append_assoc, List.append_assoc]

end Layout

/-! ## Moving tokens -/

/-- The token of a text with so many bytes and line feeds in front of it. -/
def Token.move (bytes feeds : Nat) (t : Token) : Token :=
  { t with span := ⟨t.span.start + bytes, t.span.stop + bytes⟩, line := t.line + feeds }

/-- A text in front moves every token behind it, and changes nothing else. -/
theorem Layout.move {before ahead : List Char} {tokens : Tokens} (h : Layout before ahead tokens)
    (front : List Char) :
    Layout (front ++ before) ahead
      ⟨tokens.body.map (Token.move (byteLength front) (front.count '\n')),
        tokens.finish.move (byteLength front) (front.count '\n')⟩ := by
  have hmove (text : List Char) : byteLength (front ++ text) = byteLength text + byteLength front :=
    by rw [byteLength_append, Nat.add_comm]
  have hfeeds (text : List Char) :
      1 + (front ++ text).count '\n' = 1 + text.count '\n' + front.count '\n' := by
    rw [List.count_append]
    omega
  induction h with
  | @finish before gap hgap =>
    have hfinish : (Token.finish (before ++ gap)).move (byteLength front) (front.count '\n') =
        .finish (front ++ before ++ gap) := by
      rw [List.append_assoc, Token.finish, Token.finish, hmove, hfeeds, Token.move]
    rw [hfinish]
    exact .finish hgap
  | @token before gap lexeme tokens hgap hstart hfirst _ ih =>
    have htoken : (lexeme.token (before ++ gap)).move (byteLength front) (front.count '\n') =
        lexeme.token (front ++ before ++ gap) := by
      rw [List.append_assoc, Lexeme.token, Lexeme.token, List.append_assoc front, hmove, hmove,
        hfeeds, Token.move]
    rw [List.map_cons, htoken]
    rw [← List.append_assoc, ← List.append_assoc] at ih
    exact .token hgap hstart hfirst ih

/-! ## Line feeds -/

/-- Behind the last gap of a layout and a line feed another layout goes on. -/
theorem Layout.append_line {before ahead rest : List Char} {tokens later : Tokens}
    (h : Layout before ahead tokens) (hclosed : ∀ t ∈ tokens.body, t.Closed)
    (hlater : Layout (before ++ (ahead ++ ['\n'])) rest later) :
    Layout before (ahead ++ '\n' :: rest) ⟨tokens.body ++ later.body, later.finish⟩ := by
  obtain ⟨text, gap, rfl, hpassage, hgap⟩ := h.exists_passage
  have hfeed : Apart ('\n' :: rest) := by
    rintro c ⟨⟩
    rfl
  -- The line feed ends the last gap, if need be in the middle of a comment.
  have hgap' : Trivia (gap ++ ['\n']) rest :=
    (hgap.congr fun _ => .inr ⟨rest, rfl⟩).append (.separator rfl .nil)
  rw [List.append_assoc, ← List.append_assoc before] at hlater
  have hdeparts : Departs gap (gap ++ '\n' :: rest) :=
    ⟨gap, _, List.prefix_refl gap, rfl, hfeed⟩
  have htail := hlater.of_trivia hgap'
  rw [List.append_assoc, List.singleton_append] at htail
  rw [List.append_assoc]
  exact (hpassage.of_departs hclosed hdeparts).append htail

/-- **A line feed is a seam.**  If no string in the first text is left open, the tokens of two texts
    with a line feed between them are those of the first one without its end, and those of the
    second one, moved behind the first text and the line feed. -/
theorem tokens_across_line_feed {s t : String} (h : ∀ u ∈ (Tokens.ofSource s).body, u.Closed) :
    (Tokens.ofSource (s ++ "\n" ++ t)).toList =
      (Tokens.ofSource s).body ++ (Tokens.ofSource t).toList.map
        (Token.move (s.utf8ByteSize + 1) (1 + s.toList.count '\n')) := by
  have hmoved := (layout_ofSource t).move (s.toList ++ ['\n'])
  rw [List.append_nil] at hmoved
  have hwhole := (layout_ofSource s).append_line h hmoved
  have hsource : (s ++ "\n" ++ t).toList = s.toList ++ '\n' :: t.toList := by
    rw [String.toList_append, String.toList_append, List.append_assoc]
    rfl
  rw [← hsource] at hwhole
  have hbytes : byteLength (s.toList ++ ['\n']) = s.utf8ByteSize + 1 := by
    rw [byteLength_append, byteLength_toList]
    rfl
  have hfeeds : (s.toList ++ ['\n']).count '\n' = 1 + s.toList.count '\n' := by
    rw [List.count_append, Nat.add_comm]
    rfl
  rw [← hwhole.eq_ofSource, Tokens.toList, Tokens.toList, hbytes, hfeeds, List.map_append,
    List.append_assoc, List.map_singleton]

/-- A string over two lines, half a number and a comment in front of the seam. -/
theorem tokens_behind_half_number :
    (∀ u ∈ (Tokens.ofSource "\"a\nb\" 3.//ü").body, u.Closed) ∧
      (Tokens.ofSource ("\"a\nb\" 3.//ü" ++ "\n" ++ "4\n@")).toList =
        (Tokens.ofSource "\"a\nb\" 3.//ü").body ++
          [⟨.number, "4", ⟨13, 14⟩, 3⟩, ⟨.invalid .unexpectedCharacter, "@", ⟨15, 16⟩, 4⟩,
            ⟨.endOfInput, "", ⟨16, 16⟩, 4⟩] := by
  have hclosed : ∀ u ∈ (Tokens.ofSource "\"a\nb\" 3.//ü").body, u.Closed := by decide +kernel
  have hmoved : (Tokens.ofSource "4\n@").toList.map (Token.move 13 2) =
      [⟨.number, "4", ⟨13, 14⟩, 3⟩, ⟨.invalid .unexpectedCharacter, "@", ⟨15, 16⟩, 4⟩,
        ⟨.endOfInput, "", ⟨16, 16⟩, 4⟩] := by
    decide +kernel
  refine ⟨hclosed, ?_⟩
  rw [← hmoved]
  exact tokens_across_line_feed hclosed

end ArithVM
