import ArithVM.Proofs.Decimal.Rendering
import ArithVM.Proofs.Value.Exact
import ArithVM.Value.Literal
import ArithVM.Value.Text

/-!
# Printing — the text of a value and the number that it denotes

A finite value is printed as the numeral of its exact number, rounded to six significant digits,
with a minus sign in front of a negative one.  Both zeros are printed as zero, so the printed
numbers have the order of the values.
-/

namespace ArithVM.Value

open Decimal

/-! ## Texts of finite values -/

theorem meaning_of_toRat? {v : Value} {q : Rat} (h : v.toRat? = some q) (hq : q ≠ 0) :
    v.meaning = .number (decide (q < 0)) |q| := by
  rcases toRat?_eq_some h with ⟨sign, hunpack, hzero⟩ | ⟨sign, m, e, hm, hunpack, hcanonical, rfl⟩
  · contradiction
  · have hpos : 0 < (m : Rat) * (2 : Rat) ^ e := mul_pos (by exact_mod_cast hm) (two_zpow_pos e)
    unfold meaning
    rw [hunpack]
    dsimp only
    cases sign with
    | negative =>
      rw [isMinus, if_pos rfl, abs_neg, abs_of_pos hpos, decide_eq_true (neg_lt_zero.2 hpos)]
    | positive =>
      rw [isMinus, if_neg (by decide), abs_of_pos hpos, decide_eq_false (not_lt_of_gt hpos)]

theorem text_of_toRat? {v : Value} {q : Rat} (h : v.toRat? = some q) (hq : q ≠ 0) :
    v.text = signed (decide (q < 0)) (layout.render |q|) := by
  rw [text, meaning_of_toRat? h hq]

theorem text_of_toRat?_zero {v : Value} (h : v.toRat? = some 0) :
    ∃ negative, v.text = signed negative "0" := by
  rcases toRat?_eq_some h with ⟨sign, hunpack, -⟩ | ⟨sign, m, e, hm, hunpack, hcanonical, hzero⟩
  · have hmeaning : v.meaning = .zero (isMinus sign) := by
      rw [meaning, hunpack]
    use isMinus sign
    rw [text, hmeaning]
  · -- A mantissa is positive, so neither sign of the number is zero.
    have hpos : 0 < (m : Rat) * (2 : Rat) ^ e := mul_pos (by exact_mod_cast hm) (two_zpow_pos e)
    split at hzero
    · linarith
    · linarith

theorem toList_signed (negative : Bool) (numeral : String) :
    (signed negative numeral).toList = if negative then '-' :: numeral.toList else numeral.toList := by
  cases negative with
  | true => exact String.toList_append
  | false => rfl

/-! ## Numbers of texts -/

/-- The number that a printed text denotes: a numeral, perhaps with a minus sign in front. -/
def printedRat (text : String) : Rat :=
  if text.toList.head? = some '-' then -numeralRat text.toList.tail else numeralRat text.toList

theorem printedRat_signed (negative : Bool) {numeral : String} (h : numeral.toList.head? ≠ some '-') :
    printedRat (signed negative numeral) =
      if negative then -numeralRat numeral.toList else numeralRat numeral.toList := by
  unfold printedRat
  rw [toList_signed]
  cases negative with
  | true => rfl
  | false => exact if_neg h

/-- The text of a value without its sign, for the number that the value is rounded to. -/
theorem renders_text {v : Value} {q r : Rat} (h : v.toRat? = some q) (hq : q ≠ 0)
    (hr : IsRounding 10 6 q r) :
    ∃ numeral, v.text = signed (decide (q < 0)) numeral ∧ layout.Renders |r| numeral.toList :=
  ⟨_, text_of_toRat? h hq, layout.renders_render (by decide) (by decide) (abs_pos.2 hq)
    (hr.abs (by decide) (by decide))⟩

theorem printedRat_text {v : Value} {q r : Rat} (h : v.toRat? = some q) (hr : IsRounding 10 6 q r) :
    printedRat v.text = r := by
  by_cases hq : q = 0
  · subst hq
    rcases text_of_toRat?_zero h with ⟨negative, htext⟩
    have hzero : numeralRat "0".toList = 0 := by decide +kernel
    rw [htext, hr.eq_zero, printedRat_signed negative (by decide), hzero, neg_zero, ite_self]
  · rcases renders_text h hq hr with ⟨numeral, htext, hrenders⟩
    rw [htext, printedRat_signed _ hrenders.head?_ne_minus, hrenders.numeralRat_eq]
    simp only [decide_eq_true_eq]
    exact (hr.eq_ite_abs (by decide) (by decide)).symm

/-- **Printed values.**  A finite value other than zero is printed as one number, its exact one
    rounded to six digits.  The decimal exponent of the rounded number decides between a plain
    numeral and one with an exponent; on the plain path rounding afresh at the last place gives that
    number again.  The printed numbers have the order of the values. -/
theorem text_rounds_to_six_digits {v : Value} {q : Rat} (hv : v.toRat? = some q) :
    (q ≠ 0 → ∃ r, IsRounding 10 6 q r ∧ (∀ s, IsRounding 10 6 q s → s = r) ∧
      printedRat v.text = r ∧
      ∃ numeral, v.text.toList = (if q < 0 then '-' :: numeral else numeral) ∧
        numeral.head? ≠ some '-' ∧
        if -4 ≤ Int.log 10 |r| ∧ Int.log 10 |r| ≤ 5 then
          (∃ n : Plain, n.toRat = |r| ∧ numeral = n.text) ∧
            ∀ n, IsNearest (q * (10 : Rat) ^ (5 - Int.log 10 |r|)) n →
              n * (10 : Rat) ^ (Int.log 10 |r| - 5) = r
        else
          ∃ n : Scientific 2, n.exponent = Int.log 10 |r| ∧ n.toRat = |r| ∧ numeral = n.text) ∧
    ∀ w p, w.toRat? = some p → v ≤ w → printedRat v.text ≤ printedRat w.text := by
  constructor
  · intro hq
    rcases exists_isRounding 10 6 q with ⟨r, hr⟩
    rcases renders_text hv hq hr with ⟨numeral, htext, hrenders⟩
    refine ⟨r, hr, fun s hs => hs.unique hr (by decide) (by decide), printedRat_text hv hr,
      numeral.toList, ?_, hrenders.head?_ne_minus, ?_⟩
    · rw [htext, toList_signed]
      simp only [decide_eq_true_eq]
    · cases hrenders with
      | plain n hleast hdigits hn hnumeral =>
        have hlow : -4 ≤ Int.log 10 |r| := hleast
        have hhigh : Int.log 10 |r| < 6 := hdigits
        rw [if_pos ⟨hlow, by omega⟩]
        refine ⟨⟨n, hn, hnumeral⟩, ?_⟩
        intro m hm
        -- Five decimals after the exponent of the rounded number are its last place.
        have hplace : Int.log 10 |r| - 5 = lastPlace 10 6 r := by
          rw [lastPlace]
          omega
        rw [hplace]
        apply hr.again (by decide) (by decide) hq
        rwa [div_eq_mul_inv, ← zpow_neg, ← hplace, neg_sub]
      | scientific n hrange hexponent hn hnumeral =>
        have houtside : Int.log 10 |r| < -4 ∨ 6 ≤ Int.log 10 |r| := hrange
        rw [if_neg (by omega)]
        exact ⟨n, hexponent, hn, hnumeral⟩
  · intro w p hw h
    rcases exists_isRounding 10 6 q with ⟨r, hr⟩
    rcases exists_isRounding 10 6 p with ⟨s, hs⟩
    rw [printedRat_text hv hr, printedRat_text hw hs]
    exact hr.mono hs (by decide) (by decide) (toRat?_le hv hw h)

/-- Rounding carries into the seventh digit, and that makes the numeral one with an exponent. -/
theorem text_rounds_to_six_digits_with_carry :
    (ofRat (1999999 / 2)).toRat? = some (1999999 / 2) ∧ (ofRat (1999999 / 2)).text = "1e+06" ∧
      ∃ r, IsRounding 10 6 (1999999 / 2) r ∧ printedRat (ofRat (1999999 / 2)).text = r := by
  have hv : (ofRat (1999999 / 2)).toRat? = some (1999999 / 2) := by decide +kernel
  rcases (text_rounds_to_six_digits hv).1 (by norm_num) with ⟨r, hr, -, hprinted, -⟩
  exact ⟨hv, by decide +kernel, r, hr, hprinted⟩

end ArithVM.Value
