import ArithVM.Proofs.Text.Trailing
import ArithVM.Value.Text

/-!
# One line — texts without line feeds

Numbers, columns and printed values have no line feed in them, so a row made of such texts takes one
line.
-/

namespace ArithVM

open Text

/-! ## Characters that a text lacks -/

namespace Text

/-- Numbers are written with digits. -/
theorem notMem_toString_nat {c : Char} (hc : c.isDigit = false) (n : Nat) :
    c ∉ (toString n).toList := by
  intro hmem
  rw [Nat.toString_eq_ofList_toDigits, String.toList_ofList] at hmem
  rw [Nat.isDigit_of_mem_toDigits (by decide) (by decide) hmem] at hc
  contradiction

theorem notMem_fill {c d : Char} (h : c ≠ d) (count : Nat) : c ∉ (fill count d).toList := by
  intro hmem
  rw [fill, String.toList_ofList] at hmem
  exact h (List.eq_of_mem_replicate hmem)

end Text

/-! ## Line feeds -/

/-- There is no line feed in the text. -/
def OneLine (text : String) : Prop :=
  '\n' ∉ text.toList

instance (text : String) : Decidable (OneLine text) :=
  inferInstanceAs (Decidable (_ ∉ _))

namespace OneLine

@[simp]
theorem append_iff {a b : String} : OneLine (a ++ b) ↔ OneLine a ∧ OneLine b := by
  simp only [OneLine, String.toList_append, List.mem_append, not_or]

theorem toString_nat (n : Nat) : OneLine (toString n) :=
  notMem_toString_nat (by decide) n

theorem fill (count : Nat) {c : Char} (hc : c ≠ '\n') : OneLine (Text.fill count c) :=
  notMem_fill hc.symm count

theorem padLeft {text : String} (h : OneLine text) (width : Nat) {c : Char} (hc : c ≠ '\n') :
    OneLine (Text.padLeft width c text) :=
  append_iff.2 ⟨fill _ hc, h⟩

theorem padRight {text : String} (h : OneLine text) (width : Nat) :
    OneLine (Text.padRight width text) :=
  append_iff.2 ⟨h, fill _ (by decide)⟩

/-! ## Numerals -/

theorem positional (places units : Nat) : OneLine (Decimal.positional places units) := by
  unfold Decimal.positional
  split
  · exact toString_nat _
  · exact append_iff.2 ⟨append_iff.2 ⟨toString_nat _, by decide⟩,
      (toString_nat _).padLeft places (by decide)⟩

theorem trimFraction {numeral : String} (h : OneLine numeral) :
    OneLine (Decimal.trimFraction numeral) := by
  unfold Decimal.trimFraction
  dsimp only
  split
  · intro hmem
    rw [String.toList_ofList] at hmem
    exact h (mem_of_mem_dropTrailing (mem_of_mem_dropTrailing hmem))
  · exact h

theorem exponential (layout : Decimal.GeneralLayout) (coefficient : Nat) (exponent : Int) :
    OneLine (layout.exponential coefficient exponent) := by
  have hsign : OneLine (if exponent < 0 then "e-" else "e+") := by
    split
    · decide
    · decide
  exact append_iff.2 ⟨append_iff.2 ⟨(positional _ _).trimFraction, hsign⟩,
    (toString_nat _).padLeft _ (by decide)⟩

theorem render (layout : Decimal.GeneralLayout) (q : Rat) : OneLine (layout.render q) := by
  unfold Decimal.GeneralLayout.render
  dsimp only
  split
  · exact exponential layout _ _
  · exact (positional _ _).trimFraction

theorem signed {text : String} (h : OneLine text) (negative : Bool) :
    OneLine (Value.signed negative text) := by
  cases negative with
  | false => exact h
  | true => exact append_iff.2 ⟨by decide, h⟩

theorem valueText (v : Value) : OneLine v.text := by
  unfold Value.text
  split
  · decide
  · exact signed (by decide) _
  · exact signed (by decide) _
  · exact (render _ _).signed _

end OneLine

end ArithVM
