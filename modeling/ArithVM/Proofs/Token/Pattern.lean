import ArithVM.Proofs.Token.Sequence
import Mathlib.Data.List.Infix
import Mathlib.Data.List.TakeWhile

/-!
# Patterns — the texts of the tokens, and the longest of them

`Matches` lists the texts that are tokens, with their kinds.  Patterns overlap: a symbol may begin
with another symbol, a word with another word, and a reserved word is also an identifier.  What
scanning takes off the front of a text is the longest text there that any pattern describes.
-/

namespace ArithVM

/-- The texts of the tokens.  A reserved word matches as an identifier, too. -/
inductive Matches : TokenKind → List Char → Prop where
  | symbol (s : Symbol) : Matches (.symbol s) s.text.toList
  | keyword (word : Keyword) : Matches (.keyword word) word.text.toList
  | identifier {c : Char} {cs : List Char} (hc : isWordStart c) (hcs : ∀ d ∈ cs, isWordPart d) :
    Matches .identifier (c :: cs)
  | number {cs : List Char} (hcs : IsNumeral cs) : Matches .number cs
  | string {body : List Char} (hbody : '"' ∉ body) : Matches .string ('"' :: body ++ ['"'])

/-- Some token begins with this character. -/
def StartsToken (c : Char) : Prop :=
  ∃ kind cs, Matches kind (c :: cs)

/-- The longest text of a token at the front of `cs` is `text`, and this is its kind. -/
structure LongestMatch (kind : TokenKind) (text cs : List Char) : Prop where
  matched : Matches kind text
  front : text <+: cs
  length_le : ∀ {kind' : TokenKind} {text' : List Char},
    Matches kind' text' → text' <+: cs → text'.length ≤ text.length
  /-- Where a reserved word and an identifier match, the reserved word is meant. -/
  keyword_iff : ∀ word, kind = .keyword word ↔ text = word.text.toList

/-! ## Texts cut at a character -/

theorem forall_ne_of_notMem {c : Char} {cs : List Char} (h : c ∉ cs) :
    ∀ d ∈ cs, decide (d ≠ c) = true := by
  intro d hd
  apply decide_eq_true
  rintro rfl
  exact h hd

theorem takeWhile_append_cons {p : Char → Bool} {front : List Char} {c : Char}
    (hfront : ∀ d ∈ front, p d) (hc : p c = false) (rest : List Char) :
    (front ++ c :: rest).takeWhile p = front ∧ (front ++ c :: rest).dropWhile p = c :: rest := by
  constructor
  · rw [List.takeWhile_append_of_pos hfront, List.takeWhile_cons_of_neg (by simp [hc]),
      List.append_nil]
  · rw [List.dropWhile_append_of_pos hfront, List.dropWhile_cons_of_neg (by simp [hc])]

theorem length_le_takeWhile {p : Char → Bool} {text cs : List Char} (htext : ∀ c ∈ text, p c)
    (hfront : text <+: cs) : text.length ≤ (cs.takeWhile p).length := by
  obtain ⟨rest, rfl⟩ := hfront
  rw [List.takeWhile_append_of_pos htext, List.length_append]
  exact Nat.le_add_right ..

/-! ## First characters -/

/-- A token of this kind may begin with `c`. -/
def TokenKind.Begins (kind : TokenKind) (c : Char) : Prop :=
  match kind with
  | .symbol _ => isWordStart c = false ∧ isDigit c = false ∧ c ≠ '"'
  | .keyword _ | .identifier => isWordStart c = true
  | .number => isDigit c = true
  | .string => c = '"'
  | .invalid _ | .endOfInput => False

theorem isDigit_eq_false_of_isWordStart {c : Char} (h : isWordStart c) : isDigit c = false := by
  simp only [isWordStart, isDigit, Char.le_def, UInt32.le_iff_toNat_le, Bool.or_eq_true,
    Bool.and_eq_true, decide_eq_true_eq, Bool.and_eq_false_iff, decide_eq_false_iff_not] at h ⊢
  -- As code points the digits end before the letters begin, and the underscore is no digit.
  have hnine : ('9' : Char).val.toNat = 57 := rfl
  have hlower : ('a' : Char).val.toNat = 97 := rfl
  have hupper : ('A' : Char).val.toNat = 65 := rfl
  obtain (h | h) | rfl := h
  · omega
  · omega
  · decide

theorem Symbol.begins (s : Symbol) {c : Char} (h : s.text.toList.head? = some c) :
    (TokenKind.symbol s).Begins c := by
  cases s <;> cases h <;> exact ⟨rfl, rfl, by decide⟩

theorem Symbol.front_of_leading? {s : Symbol} {cs : List Char} (h : leading? cs = some s) :
    s.text.toList <+: cs := by
  have hfound := List.find?_some h
  exact List.isPrefixOf_iff_prefix.1 hfound

/-- The first character of a symbol is a symbol itself. -/
theorem Symbol.exists_text_eq_singleton (s : Symbol) {c : Char}
    (h : s.text.toList.head? = some c) : ∃ s' ∈ all, s'.text.toList = [c] := by
  cases s <;> cases h <;> decide

theorem Keyword.begins (word : Keyword) {c : Char} (h : word.text.toList.head? = some c) :
    (TokenKind.keyword word).Begins c := by
  cases word <;> cases h <;> rfl

theorem Keyword.forall_isWordPart (word : Keyword) : ∀ c ∈ word.text.toList, isWordPart c := by
  have hall : word.text.toList.all isWordPart = true := by cases word <;> decide
  exact List.all_eq_true.1 hall

theorem IsDigits.notMem {cs : List Char} (h : IsDigits cs) {c : Char} (hc : isDigit c = false) :
    c ∉ cs := by
  intro hmem
  rw [h.2 c hmem] at hc
  contradiction

namespace Matches

variable {kind : TokenKind} {text cs : List Char} {c : Char}

theorem ne_nil (h : Matches kind text) : text ≠ [] := by
  cases h with
  | symbol s => exact s.toList_text_ne_nil
  | keyword word => cases word <;> decide
  | identifier => exact List.cons_ne_nil _ _
  | number hcs =>
    obtain ⟨whole, hwhole, rfl | ⟨fraction, -, rfl⟩⟩ := hcs
    · exact hwhole.1
    · exact List.append_ne_nil_of_right_ne_nil _ (List.cons_ne_nil _ _)
  | string => exact List.cons_ne_nil _ _

theorem eq_text_of_symbol {s : Symbol} (h : Matches (.symbol s) text) : text = s.text.toList := by
  cases h
  rfl

theorem begins (h : Matches kind text) (hc : text.head? = some c) : kind.Begins c := by
  cases h with
  | symbol s => exact s.begins hc
  | keyword word => exact word.begins hc
  | identifier hstart => cases hc; exact hstart
  | number hcs =>
    obtain ⟨whole, ⟨hne, hdigits⟩, hcs⟩ := hcs
    cases whole with
    | nil => contradiction
    | cons d whole =>
      have hd := hdigits d List.mem_cons_self
      obtain rfl | ⟨fraction, -, rfl⟩ := hcs
      · cases hc; exact hd
      · cases hc; exact hd
  | string => cases hc; rfl

theorem head?_of_front (h : Matches kind text) (hfront : text <+: c :: cs) :
    text.head? = some c := by
  obtain rfl | ⟨rest, rfl, -⟩ := List.prefix_cons_iff.1 hfront
  · exact absurd rfl h.ne_nil
  · rfl

theorem begins_of_front (h : Matches kind text) (hfront : text <+: c :: cs) : kind.Begins c :=
  h.begins (h.head?_of_front hfront)

/-- Only strings go over line feeds. -/
theorem notMem_feed (h : Matches kind text) (hkind : kind ≠ .string) : '\n' ∉ text := by
  cases h with
  | symbol s => cases s <;> decide
  | keyword word => cases word <;> decide
  | identifier hc hcs =>
    intro hmem
    rcases List.mem_cons.1 hmem with rfl | hmem
    · contradiction
    · have hpart := hcs _ hmem
      contradiction
  | number hcs =>
    rcases hcs with ⟨whole, hwhole, rfl | ⟨fraction, hfraction, rfl⟩⟩
    · exact hwhole.notMem rfl
    · intro hmem
      rcases List.mem_append.1 hmem with hmem | hmem
      · exact hwhole.notMem rfl hmem
      · rcases List.mem_cons.1 hmem with heq | hmem
        · contradiction
        · exact hfraction.notMem rfl hmem
  | string => contradiction

end Matches

theorem ne_keyword_text {c : Char} (hc : isWordStart c = false) {text : List Char}
    (htext : text.head? = some c) (word : Keyword) : text ≠ word.text.toList := by
  rintro rfl
  have hstart : isWordStart c = true := word.begins htext
  rw [hc] at hstart
  contradiction

/-! ## Words -/

theorem Keyword.ofText?_eq_some_iff {text : String} {word : Keyword} :
    ofText? text = some word ↔ text = word.text := by
  constructor
  · intro h
    have hfound := List.find?_some h
    exact (of_decide_eq_true hfound).symm
  · rintro rfl
    exact ofText?_text word

namespace Lexeme

variable {c : Char} {cs text : List Char}

theorem kind_word_eq_keyword_iff (cs : List Char) (w : Keyword) :
    (word cs).kind = .keyword w ↔ (word cs).text = w.text.toList := by
  -- Reserved words are looked up as strings, patterns are about characters.
  have htext : String.ofList (word cs).text = w.text ↔ (word cs).text = w.text.toList := by
    constructor
    · intro h
      rw [← h, String.toList_ofList]
    · intro h
      rw [h, String.ofList_toList]
  rw [← htext, ← Keyword.ofText?_eq_some_iff]
  unfold word
  dsimp only
  split
  next w' h => simp [h]
  next h => simp [h]

theorem longestMatch_word (hc : isWordStart c) :
    LongestMatch (word (c :: cs)).kind (word (c :: cs)).text (c :: cs) := by
  have hpart : isWordPart c = true := by simp [isWordPart, hc]
  have htext : (word (c :: cs)).text = c :: cs.takeWhile isWordPart :=
    List.takeWhile_cons_of_pos hpart
  have hkeyword := kind_word_eq_keyword_iff (c :: cs)
  refine ⟨?_, List.takeWhile_prefix isWordPart, ?_, hkeyword⟩
  · cases hword : Keyword.ofText? (String.ofList (word (c :: cs)).text) with
    | none =>
      have hkind : (word (c :: cs)).kind = .identifier := by
        unfold word at hword ⊢
        simp only [hword]
      rw [hkind, htext]
      exact .identifier hc (List.all_eq_true.1 List.all_takeWhile)
    | some w =>
      have hkind : (word (c :: cs)).kind = .keyword w := by
        unfold word at hword ⊢
        simp only [hword]
      rw [hkind, (hkeyword w).1 hkind]
      exact .keyword w
  · intro kind' text' hmatch hfront
    have hbegins := hmatch.begins_of_front hfront
    apply length_le_takeWhile _ hfront
    -- A text that begins like a word is one.
    cases hmatch with
    | symbol => simp [TokenKind.Begins, hc] at hbegins
    | keyword w => exact w.forall_isWordPart
    | identifier hc' hcs =>
      rw [List.forall_mem_cons]
      exact ⟨by simp [isWordPart, hc'], hcs⟩
    | number => simp [TokenKind.Begins, isDigit_eq_false_of_isWordStart hc] at hbegins
    | string =>
      rw [TokenKind.Begins] at hbegins
      subst hbegins
      contradiction

/-! ## Numbers -/

theorem text_number_of_fraction {whole : List Char} (hwhole : ∀ d ∈ whole, isDigit d)
    {fraction : List Char} (hfraction : IsDigits fraction) (rest : List Char) :
    (number (whole ++ '.' :: (fraction ++ rest))).text =
      whole ++ '.' :: (fraction ++ rest).takeWhile isDigit := by
  obtain ⟨htake, hdrop⟩ :=
    takeWhile_append_cons hwhole (show isDigit '.' = false from rfl) (fraction ++ rest)
  cases fraction with
  | nil => exact absurd rfl hfraction.1
  | cons d fraction =>
    have hd := hfraction.2 d List.mem_cons_self
    simp only [List.cons_append] at htake hdrop ⊢
    simp only [number, htake, hdrop, if_pos hd]

theorem length_takeWhile_le_number (cs : List Char) :
    (cs.takeWhile isDigit).length ≤ (number cs).text.length := by
  unfold number
  split
  · split
    · rw [List.length_append]
      exact Nat.le_add_right ..
    · exact Nat.le_refl _
  · exact Nat.le_refl _

theorem length_le_number (h : IsNumeral text) (hfront : text <+: cs) :
    text.length ≤ (number cs).text.length := by
  obtain ⟨whole, hwhole, rfl | ⟨fraction, hfraction, rfl⟩⟩ := h
  · exact Nat.le_trans (length_le_takeWhile hwhole.2 hfront) (length_takeWhile_le_number cs)
  · -- A fraction that is matched is taken, and its point with it.
    obtain ⟨rest, rfl⟩ := hfront
    rw [List.append_assoc, List.cons_append, text_number_of_fraction hwhole.2 hfraction]
    have hle := length_le_takeWhile hfraction.2 (List.prefix_append fraction rest)
    simp only [List.length_append, List.length_cons]
    omega

theorem kind_number (cs : List Char) : (number cs).kind = .number := by
  unfold number
  split
  · split <;> rfl
  · rfl

theorem longestMatch_number (hword : isWordStart c = false) (hc : isDigit c) :
    LongestMatch (number (c :: cs)).kind (number (c :: cs)).text (c :: cs) := by
  have hmatch : Matches .number (number (c :: cs)).text := .number (isNumeral_number hc cs)
  have hfront : (number (c :: cs)).text <+: c :: cs := ⟨_, number_append (c :: cs)⟩
  rw [kind_number]
  refine ⟨hmatch, hfront, ?_, ?_⟩
  · intro kind' text' hmatch' hfront'
    have hbegins := hmatch'.begins_of_front hfront'
    cases hmatch' with
    | symbol => simp [TokenKind.Begins, hc] at hbegins
    | keyword => simp [TokenKind.Begins, hword] at hbegins
    | identifier => simp [TokenKind.Begins, hword] at hbegins
    | number hnumeral => exact length_le_number hnumeral hfront'
    | string =>
      rw [TokenKind.Begins] at hbegins
      subst hbegins
      contradiction
  · intro word
    simp [ne_keyword_text hword (hmatch.head?_of_front hfront) word]

/-! ## Strings -/

theorem string_of_closed {body : List Char} (hbody : '"' ∉ body) (rest : List Char) :
    string (body ++ '"' :: rest) = ⟨.string, '"' :: body ++ ['"'], rest⟩ := by
  obtain ⟨htake, hdrop⟩ :=
    takeWhile_append_cons (forall_ne_of_notMem hbody) (decide_eq_false (not_not.2 rfl)) rest
  simp only [string, htake, hdrop]

theorem string_of_open {cs : List Char} (hcs : '"' ∉ cs) :
    string cs = ⟨.invalid .unterminatedString, '"' :: cs, []⟩ := by
  have htake := List.takeWhile_eq_self_iff.2 (forall_ne_of_notMem hcs)
  have hdrop := List.dropWhile_eq_nil_iff.2 (forall_ne_of_notMem hcs)
  simp only [string, htake, hdrop]

theorem longestMatch_string {body : List Char} (hbody : '"' ∉ body) (rest : List Char) :
    LongestMatch .string ('"' :: body ++ ['"']) ('"' :: (body ++ '"' :: rest)) := by
  have hword : isWordStart '"' = false := rfl
  have hdigit : isDigit '"' = false := rfl
  refine ⟨.string hbody, ⟨rest, by simp⟩, ?_, ?_⟩
  · intro kind' text' hmatch hfront
    have hbegins := hmatch.begins_of_front hfront
    cases hmatch with
    | symbol => simp [TokenKind.Begins] at hbegins
    | keyword => simp [TokenKind.Begins, hword] at hbegins
    | identifier => simp [TokenKind.Begins, hword] at hbegins
    | number => simp [TokenKind.Begins, hdigit] at hbegins
    | @string body' hbody' =>
      -- Both strings end at the first quote behind the opening one.
      obtain ⟨rest', hrest⟩ := hfront
      have hparts : body' ++ '"' :: rest' = body ++ '"' :: rest := by simpa using hrest
      have hstring := string_of_closed hbody rest
      rw [← hparts, string_of_closed hbody'] at hstring
      exact Nat.le_of_eq (congrArg (fun lexeme : Lexeme => lexeme.text.length) hstring)
  · intro word
    have hhead : ('"' :: body ++ ['"']).head? = some '"' := rfl
    simp only [ne_keyword_text hword hhead word, reduceCtorEq]

/-! ## Symbols -/

theorem longestMatch_symbol {s : Symbol} (h : Symbol.leading? (c :: cs) = some s) :
    LongestMatch (.symbol s) s.text.toList (c :: cs) := by
  have hsorted : Symbol.all.Pairwise fun s s' => s'.text.toList.length ≤ s.text.toList.length := by
    decide
  obtain ⟨-, longer, shorter, hall, hlonger⟩ := List.find?_eq_some_iff_append.1 h
  have hmatch : Matches (.symbol s) s.text.toList := .symbol s
  have hfront := Symbol.front_of_leading? h
  obtain ⟨hword, hdigit, hquote⟩ : (TokenKind.symbol s).Begins c := hmatch.begins_of_front hfront
  refine ⟨hmatch, hfront, ?_, ?_⟩
  · intro kind' text' hmatch' hfront'
    have hbegins := hmatch'.begins_of_front hfront'
    cases hmatch' with
    | symbol s' =>
      -- The symbols in front of `s` are not here, and those behind it are not longer.
      have hmem := s'.mem_all
      rw [hall] at hsorted hmem
      rw [List.mem_append, List.mem_cons] at hmem
      obtain hmem | rfl | hmem := hmem
      · have hnot := hlonger s' hmem
        rw [List.isPrefixOf_iff_prefix.2 hfront'] at hnot
        contradiction
      · exact Nat.le_refl _
      · exact List.rel_of_pairwise_cons (List.pairwise_append.1 hsorted).2.1 hmem
    | keyword => simp [TokenKind.Begins, hword] at hbegins
    | identifier => simp [TokenKind.Begins, hword] at hbegins
    | number => simp [TokenKind.Begins, hdigit] at hbegins
    | string => exact absurd hbegins hquote
  · intro word
    simp [ne_keyword_text hword (hmatch.head?_of_front hfront) word]

/-! ## The front of a text -/

/-- Where a token starts, scanning takes the longest one. -/
theorem longestMatch_of_first? {lexeme : Lexeme} (h : first? (c :: cs) = some lexeme)
    (hstarts : StartsToken c) (hclosed : c = '"' → '"' ∈ cs) :
    LongestMatch lexeme.kind lexeme.text (c :: cs) := by
  obtain ⟨c, cs, heq, hfirst⟩ := exists_first_of_first? h
  cases heq
  cases hfirst with
  | word hc => exact longestMatch_word hc
  | number hword hc => exact longestMatch_number hword hc
  | string hc =>
    obtain ⟨body, rest, rfl, hbody⟩ := List.eq_append_cons_of_mem (hclosed hc)
    rw [string_of_closed hbody, hc]
    exact longestMatch_string hbody rest
  | symbol hs => exact longestMatch_symbol hs
  | stray hword hdigit hquote hsymbol =>
    -- A token that starts here would be a symbol, and its first character one, too.
    obtain ⟨kind, text, hmatch⟩ := hstarts
    have hbegins := hmatch.begins rfl
    cases kind with
    | symbol s =>
      obtain ⟨s', hmem, hs'⟩ : ∃ s' ∈ Symbol.all, s'.text.toList = [c] := by
        apply s.exists_text_eq_singleton
        rw [← hmatch.eq_text_of_symbol]
        rfl
      have hnot := List.find?_eq_none.1 hsymbol s' hmem
      simp [hs'] at hnot
    | keyword => simp [TokenKind.Begins, hword] at hbegins
    | identifier => simp [TokenKind.Begins, hword] at hbegins
    | number => simp [TokenKind.Begins, hdigit] at hbegins
    | string => exact absurd hbegins hquote
    | invalid => exact absurd hbegins id
    | endOfInput => exact absurd hbegins id

/-- A proper token is of its kind. -/
theorem matches_of_first? {lexeme : Lexeme} (h : first? cs = some lexeme)
    (hproper : ∀ e, lexeme.kind ≠ .invalid e) : Matches lexeme.kind lexeme.text := by
  rcases exists_first_of_first? h with ⟨c, cs, rfl, hfirst⟩
  cases hfirst with
  | word hc => exact (longestMatch_word hc).matched
  | number hword hc => exact (longestMatch_number hword hc).matched
  | string hc =>
    by_cases hquote : '"' ∈ cs
    · rcases List.eq_append_cons_of_mem hquote with ⟨body, rest, rfl, hbody⟩
      rw [string_of_closed hbody]
      exact .string hbody
    · rw [string_of_open hquote] at hproper
      exact absurd rfl (hproper _)
  | symbol hs => exact .symbol _
  | stray => exact absurd rfl (hproper _)

theorem first?_of_open (h : '"' ∉ cs) :
    first? ('"' :: cs) = some ⟨.invalid .unterminatedString, '"' :: cs, []⟩ := by
  rw [← string_of_open h]
  rfl

theorem first?_of_not_startsToken (h : ¬ StartsToken c) (cs : List Char) :
    first? (c :: cs) = some ⟨.invalid .unexpectedCharacter, [c], cs⟩ := by
  -- Every other branch would give a token that begins with `c`.
  have hword : isWordStart c = false := by
    apply eq_false_of_ne_true
    intro hc
    exact h ⟨.identifier, [], .identifier hc (by simp)⟩
  have hdigit : isDigit c = false := by
    apply eq_false_of_ne_true
    intro hc
    exact h ⟨.number, [], .number ⟨[c], ⟨by simp, by simp [hc]⟩, .inl rfl⟩⟩
  have hquote : c ≠ '"' := by
    rintro rfl
    exact h ⟨.string, ['"'], .string List.not_mem_nil⟩
  have hsymbol : Symbol.leading? (c :: cs) = none := by
    cases hs : Symbol.leading? (c :: cs) with
    | none => rfl
    | some s =>
      have hmatch := Matches.symbol s
      obtain hnil | ⟨rest, hrest, -⟩ := List.prefix_cons_iff.1 (Symbol.front_of_leading? hs)
      · exact absurd hnil hmatch.ne_nil
      · rw [hrest] at hmatch
        exact absurd ⟨_, _, hmatch⟩ h
  simp [first?, hword, hdigit, hquote, hsymbol]

end Lexeme

end ArithVM
