import ArithVM.Token.Lossless

/-!
# The sequence of tokens — what holds of every token of a source

The tokens of a source are those that one scan after the other yields.  Whatever a scan guarantees
for its token holds therefore of all of them: only the last one marks the end, and the text of a
number is a numeral.
-/

namespace ArithVM

namespace Cursor

/-- What every scan guarantees for a token other than the end holds of the tokens of a source. -/
theorem forall_mem_body_tokens {P : Token → Prop}
    (h : ∀ c : Cursor, c.scan.1.kind ≠ .endOfInput → P c.scan.1) (c : Cursor) :
    ∀ t ∈ c.tokens.body, P t := by
  fun_induction tokens c with
  | case1 c step hend => simp
  | case2 c step hend following ih =>
    intro t ht
    rw [List.mem_cons] at ht
    rcases ht with rfl | ht
    · exact h c hend
    · exact ih t ht

theorem kind_finish_tokens (c : Cursor) : c.tokens.finish.kind = .endOfInput := by
  fun_induction tokens c with
  | case1 c step hend => exact hend
  | case2 c step hend following ih => exact ih

end Cursor

/-! ## Numerals -/

def IsDigits (cs : List Char) : Prop :=
  cs ≠ [] ∧ ∀ c ∈ cs, isDigit c

/-- Digits, perhaps with a point and more digits behind them. -/
def IsNumeral (cs : List Char) : Prop :=
  ∃ whole, IsDigits whole ∧
    (cs = whole ∨ ∃ fraction, IsDigits fraction ∧ cs = whole ++ '.' :: fraction)

theorem isDigits_takeWhile {c : Char} (hc : isDigit c) (cs : List Char) :
    IsDigits ((c :: cs).takeWhile isDigit) := by
  refine ⟨?_, List.all_eq_true.1 List.all_takeWhile⟩
  rw [List.takeWhile_cons_of_pos hc]
  exact List.cons_ne_nil c _

namespace Lexeme

theorem isNumeral_number {c : Char} (hc : isDigit c) (cs : List Char) :
    IsNumeral (number (c :: cs)).text := by
  have hwhole := isDigits_takeWhile hc cs
  unfold number
  split
  next d rest _ =>
    split
    next hd => exact ⟨_, hwhole, .inr ⟨_, isDigits_takeWhile hd rest, rfl⟩⟩
    next => exact ⟨_, hwhole, .inl rfl⟩
  next => exact ⟨_, hwhole, .inl rfl⟩

theorem isNumeral_of_first? {cs : List Char} {lexeme : Lexeme} (h : first? cs = some lexeme)
    (hkind : lexeme.kind = .number) : IsNumeral lexeme.text := by
  obtain ⟨c, cs, rfl, hfirst⟩ := exists_first_of_first? h
  cases hfirst with
  | word =>
    simp only [word] at hkind
    split at hkind <;> contradiction
  | number _ hc => exact isNumeral_number hc cs
  | string =>
    unfold string at hkind
    split at hkind <;> contradiction
  | symbol => contradiction
  | stray => contradiction

end Lexeme

namespace Tokens

theorem kind_finish_ofSource (source : String) :
    (ofSource source).finish.kind = .endOfInput :=
  Cursor.kind_finish_tokens _

theorem kind_ne_endOfInput {source : String} {t : Token} (ht : t ∈ (ofSource source).body) :
    t.kind ≠ .endOfInput :=
  Cursor.forall_mem_body_tokens (P := (·.kind ≠ .endOfInput)) (fun _ h => h) _ t ht

theorem isNumeral_text {source : String} {t : Token} (ht : t ∈ (ofSource source).body)
    (hkind : t.kind = .number) : IsNumeral t.text.toList := by
  refine Cursor.forall_mem_body_tokens (P := fun t => t.kind = .number → IsNumeral t.text.toList)
    ?_ _ t ht hkind
  intro c _ hnumber
  cases hfirst : Lexeme.first? c.skipTrivia.rest with
  | none =>
    simp only [Cursor.scan, hfirst] at hnumber
    contradiction
  | some lexeme =>
    simp only [Cursor.scan, hfirst] at hnumber ⊢
    rw [String.toList_ofList]
    exact Lexeme.isNumeral_of_first? hfirst hnumber

end Tokens

end ArithVM
