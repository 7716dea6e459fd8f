import ArithVM.Token.Scan

/-!
# Scanning loses nothing

What scanning takes off the front of a text, put back before what it leaves, is the text again.  A
token is never empty, so every token that is not the end brings the end nearer; `Cursor.tokens`
stops for that reason.
-/

namespace ArithVM

theorem splitTrivia_append (cs : List Char) : (splitTrivia cs).1 ++ (splitTrivia cs).2 = cs := by
  fun_induction splitTrivia cs with
  | case1 => rfl
  | case2 cs more rest heq ih => simp_all [List.append_assoc, List.takeWhile_append_dropWhile]
  | case3 c cs _ hc more rest heq ih => simp_all
  | case4 c cs _ hc => simp

namespace Lexeme

theorem word_append (cs : List Char) : (word cs).text ++ (word cs).rest = cs :=
  List.takeWhile_append_dropWhile

theorem number_append (cs : List Char) : (number cs).text ++ (number cs).rest = cs := by
  have hcs : cs.takeWhile isDigit ++ cs.dropWhile isDigit = cs := List.takeWhile_append_dropWhile
  unfold number
  split
  next d rest htail =>
    rw [htail] at hcs
    split
    · rw [List.append_assoc, List.cons_append, List.takeWhile_append_dropWhile]
      exact hcs
    · exact hcs
  next => exact hcs

theorem string_append (cs : List Char) : (string cs).text ++ (string cs).rest = '"' :: cs := by
  have hcs : cs.takeWhile (· ≠ '"') ++ cs.dropWhile (· ≠ '"') = cs :=
    List.takeWhile_append_dropWhile
  unfold string
  split
  next quote rest htail =>
    rw [htail] at hcs
    simpa using hcs
  next htail =>
    rw [htail] at hcs
    simpa using hcs

/-- The longest token at the front of a text, by what the text begins with. -/
inductive First (c : Char) (cs : List Char) : Lexeme → Prop where
  | word (hc : isWordStart c) : First c cs (.word (c :: cs))
  | number (hword : isWordStart c = false) (hc : isDigit c) : First c cs (.number (c :: cs))
  | string (hc : c = '"') : First c cs (.string cs)
  | symbol {s : Symbol} (hs : Symbol.leading? (c :: cs) = some s) :
    First c cs ⟨.symbol s, s.text.toList, (c :: cs).drop s.text.length⟩
  | stray (hword : isWordStart c = false) (hdigit : isDigit c = false) (hquote : c ≠ '"')
    (hsymbol : Symbol.leading? (c :: cs) = none) :
    First c cs ⟨.invalid .unexpectedCharacter, [c], cs⟩

theorem exists_first_of_first? {cs : List Char} {lexeme : Lexeme} (h : first? cs = some lexeme) :
    ∃ c tail, cs = c :: tail ∧ First c tail lexeme := by
  cases cs with
  | nil => simp [first?] at h
  | cons c cs =>
    refine ⟨c, cs, rfl, ?_⟩
    simp only [first?] at h
    split at h
    next hword => cases h; exact .word hword
    next hword =>
      split at h
      next hdigit => cases h; exact .number (eq_false_of_ne_true hword) hdigit
      next hdigit =>
        split at h
        next hquote => cases h; exact .string hquote
        next hquote =>
          split at h
          next hs => cases h; exact .symbol hs
          next hs =>
            cases h
            exact .stray (eq_false_of_ne_true hword) (eq_false_of_ne_true hdigit) hquote hs

/-- A lexeme and what follows it make up the text it was taken from. -/
theorem first?_append {cs : List Char} {lexeme : Lexeme} (h : first? cs = some lexeme) :
    lexeme.text ++ lexeme.rest = cs := by
  obtain ⟨c, cs, rfl, hfirst⟩ := exists_first_of_first? h
  cases hfirst with
  | word => exact word_append (c :: cs)
  | number => exact number_append (c :: cs)
  | string hc => rw [string_append, hc]
  | symbol hs =>
    have hfront := List.find?_some hs
    obtain ⟨tail, htail⟩ := List.isPrefixOf_iff_prefix.1 hfront
    rw [← htail, ← String.length_toList, List.drop_left]
  | stray => rfl

/-- A lexeme is never empty. -/
theorem first?_text_ne_nil {cs : List Char} {lexeme : Lexeme} (h : first? cs = some lexeme) :
    lexeme.text ≠ [] := by
  obtain ⟨c, cs, rfl, hfirst⟩ := exists_first_of_first? h
  cases hfirst with
  | word hc => simp [word, isWordPart, hc]
  | number _ hc =>
    unfold number
    split
    · split <;> simp [hc]
    · simp [hc]
  | string =>
    unfold string
    split <;> simp
  | symbol hs => exact Symbol.toList_text_ne_nil _
  | stray => simp

theorem first?_eq_none_iff {cs : List Char} : first? cs = none ↔ cs = [] := by
  constructor
  · intro h
    cases cs with
    | nil => rfl
    | cons c cs =>
      unfold first? at h
      repeat' split at h
      all_goals simp_all
  · rintro rfl
    rfl

end Lexeme

namespace Cursor

theorem length_skipTrivia_le (c : Cursor) : c.skipTrivia.rest.length ≤ c.rest.length := by
  have h := congrArg List.length (splitTrivia_append c.rest)
  simp only [List.length_append] at h
  simp only [skipTrivia, pass]
  omega

/-- A token other than the end leaves less of the source than there was. -/
theorem length_scan_lt {c : Cursor} (h : c.scan.1.kind ≠ .endOfInput) :
    c.scan.2.rest.length < c.rest.length := by
  have hskip := c.length_skipTrivia_le
  cases hfirst : Lexeme.first? c.skipTrivia.rest with
  | none => simp [scan, hfirst] at h
  | some lexeme =>
    have hparts := congrArg List.length (Lexeme.first?_append hfirst)
    have hpos := List.length_pos_iff.2 (Lexeme.first?_text_ne_nil hfirst)
    simp only [List.length_append] at hparts
    simp only [scan, hfirst, pass]
    omega

/-- The tokens from here on, up to the end of the source. -/
def tokens (c : Cursor) : Tokens :=
  let step := c.scan
  if _ : step.1.kind = .endOfInput then
    ⟨[], step.1⟩
  else
    let following := tokens step.2
    ⟨step.1 :: following.body, following.finish⟩
termination_by c.rest.length
decreasing_by exact length_scan_lt ‹_›

end Cursor

namespace Tokens

/-- The tokens of a source. -/
def ofSource (source : String) : Tokens :=
  (Cursor.start source).tokens

end Tokens

end ArithVM
