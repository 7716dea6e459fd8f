import ArithVM.Proofs.Decimal.Numeral
import ArithVM.Proofs.Decimal.Rounding

/-!
# Renderings — the text of a number in a general layout

A number is rounded before it is written, and the decimal exponent of the rounded number decides
between the two notations.  Positional notation rounds the number a second time, at a place that the
first rounding has fixed, and writes the same number nevertheless.
-/

namespace ArithVM.Decimal

open Text Value

/-! ## Reading -/

/-- The exponent that a sign and digits denote. -/
def exponentOf : List Char → Int
  | '-' :: digits => -digitsValue digits
  | '+' :: digits => digitsValue digits
  | _ => 0

/-- The number that a numeral denotes, whether it has an exponent or not. -/
def numeralRat (text : List Char) : Rat :=
  literalRat (text.takeWhile (· ≠ 'e')) *
    (10 : Rat) ^ exponentOf ((text.dropWhile (· ≠ 'e')).drop 1)

theorem Plain.ne_e_of_mem_text (n : Plain) : ∀ c ∈ n.text, decide (c ≠ 'e') = true := by
  intro c hc
  apply decide_eq_true
  rintro rfl
  unfold text at hc
  split at hc
  next => exact absurd (n.isDigits_whole.2 _ hc) (by decide)
  next =>
    rcases List.mem_append.1 hc with hc | hc
    · exact absurd (n.isDigits_whole.2 _ hc) (by decide)
    · rcases List.mem_cons.1 hc with hc | hc
      · contradiction
      · exact absurd (n.isDigit_fraction _ hc) (by decide)

theorem Plain.numeralRat_text (n : Plain) : numeralRat n.text = n.toRat := by
  rw [numeralRat, List.takeWhile_eq_self_iff.2 n.ne_e_of_mem_text,
    List.dropWhile_eq_nil_iff.2 n.ne_e_of_mem_text, n.literalRat_text]
  exact mul_one _

theorem Scientific.exponentOf_text {width : Nat} (n : Scientific width) :
    exponentOf ((if n.exponent < 0 then '-' else '+') :: n.digits) = n.exponent := by
  have hdigits := n.digitsValue_digits
  split
  next =>
    show -(digitsValue n.digits : Int) = n.exponent
    omega
  next =>
    show (digitsValue n.digits : Int) = n.exponent
    omega

theorem Scientific.numeralRat_text {width : Nat} (n : Scientific width) :
    numeralRat n.text = n.toRat := by
  have hmantissa := n.mantissa.ne_e_of_mem_text
  rw [numeralRat, text, List.takeWhile_append_of_pos hmantissa,
    List.dropWhile_append_of_pos hmantissa, List.takeWhile_cons_of_neg (by decide),
    List.dropWhile_cons_of_neg (by decide), List.append_nil, n.mantissa.literalRat_text,
    List.drop_succ_cons, List.drop_zero, n.exponentOf_text, toRat]

/-! ## Writing -/

/-- The text of positive `r` in a layout, as a numeral of one of the two kinds. -/
inductive GeneralLayout.Renders (layout : GeneralLayout) (r : Rat) (text : List Char) : Prop where
  | plain (n : Plain) (hleast : layout.leastPositional ≤ Int.log 10 r)
      (hdigits : Int.log 10 r < layout.digits) (hr : n.toRat = r) (htext : text = n.text)
  | scientific (n : Scientific layout.exponentDigits)
      (hrange : Int.log 10 r < layout.leastPositional ∨ layout.digits ≤ Int.log 10 r)
      (hexponent : n.exponent = Int.log 10 r) (hr : n.toRat = r) (htext : text = n.text)

theorem Plain.isDigit_of_head?_text (n : Plain) {c : Char} (h : n.text.head? = some c) :
    isDigit c := by
  apply n.isDigits_whole.2 c
  apply List.mem_of_head?
  unfold text at h
  split at h
  next => exact h
  next => rwa [List.head?_append_of_ne_nil _ n.isDigits_whole.1] at h

theorem Plain.text_ne_nil (n : Plain) : n.text ≠ [] := by
  unfold text
  split
  next => exact n.isDigits_whole.1
  next => exact List.append_ne_nil_of_left_ne_nil n.isDigits_whole.1 _

theorem GeneralLayout.Renders.head?_ne_minus {layout : GeneralLayout} {r : Rat} {text : List Char}
    (h : layout.Renders r text) : text.head? ≠ some '-' := by
  intro hminus
  have hdigit : isDigit '-' := by
    cases h with
    | plain n hleast hdigits hr htext =>
      rw [htext] at hminus
      exact n.isDigit_of_head?_text hminus
    | scientific n hrange hexponent hr htext =>
      rw [htext, Scientific.text, List.head?_append_of_ne_nil _ n.mantissa.text_ne_nil] at hminus
      exact n.mantissa.isDigit_of_head?_text hminus
  contradiction

theorem GeneralLayout.Renders.numeralRat_eq {layout : GeneralLayout} {r : Rat} {text : List Char}
    (h : layout.Renders r text) : numeralRat text = r := by
  cases h with
  | plain n hleast hdigits hr htext => rw [htext, n.numeralRat_text, hr]
  | scientific n hrange hexponent hr htext => rw [htext, n.numeralRat_text, hr]

namespace GeneralLayout

variable (layout : GeneralLayout)

/-- The text of a rounded number. -/
def write (s : Scaled) : String :=
  let exponent := s.exponent + layout.digits - 1
  if exponent < layout.leastPositional ∨ layout.digits ≤ exponent then
    layout.exponential s.coefficient exponent
  else
    trimFraction (positional (layout.digits - 1 - exponent).toNat s.coefficient)

/-- The second rounding of a layout finds the coefficient of the first one. -/
theorem render_eq_write (hdigits : 0 < layout.digits) {q : Rat} (hq : 0 < q) :
    layout.render q = layout.write (roundToDigits 10 layout.digits q) := by
  have hbase : 1 < 10 := by decide
  have hspec := roundToDigits_spec hbase hdigits hq
  unfold render write
  dsimp only
  generalize roundToDigits 10 layout.digits q = s at hspec ⊢
  split
  next => rfl
  next hrange =>
    have hplace := lastPlace_of_log_eq (hspec.1.toRat_pos hbase hdigits)
      (hspec.1.log_eq hbase hdigits)
    have hplaces : ((layout.digits - 1 - (s.exponent + layout.digits - 1)).toNat : Int) =
        -s.exponent := by omega
    have hscale : (10 : Rat) ^ (layout.digits - 1 - (s.exponent + layout.digits - 1)).toNat =
        ((10 : Rat) ^ s.exponent)⁻¹ := by
      rw [← zpow_natCast, hplaces, zpow_neg]
    -- The places written are those of the first rounding's unit, so rounding finds it again.
    have hagain := hspec.2.again_of_pos hbase hdigits hq (isNearest_roundHalfEven _)
    rw [hplace, Scaled.toRat, mul_left_inj' (ne_of_gt (scale_pos hbase _))] at hagain
    have hunits : roundHalfEven (q / (10 : Rat) ^ s.exponent) = s.coefficient := by
      exact_mod_cast hagain
    rw [hscale, ← div_eq_mul_inv, hunits, Int.toNat_natCast]

theorem renders_write (hdigits : 0 < layout.digits) (hwidth : 0 < layout.exponentDigits) {s : Scaled}
    (hs : s.Normal 10 layout.digits) : layout.Renders (s.toRat 10) (layout.write s).toList := by
  have hlog := hs.log_eq (by decide) hdigits
  unfold write
  dsimp only
  rw [← hlog]
  split
  next hrange =>
    have hle := hs.le_coefficient
    have hlt : s.coefficient < 10 ^ (layout.digits - 1 + 1) := by
      rw [Nat.sub_add_cancel hdigits]
      exact hs.coefficient_lt
    have hn : (Scientific.ofUnits hwidth hle hlt (Int.log 10 (s.toRat 10))).toRat = s.toRat 10 := by
      rw [Scientific.toRat_ofUnits, hlog, Scaled.toRat]
      congr 2
      omega
    exact .scientific (.ofUnits hwidth hle hlt (Int.log 10 (s.toRat 10))) hrange rfl hn
      (layout.toList_exponential hwidth hle hlt (Int.log 10 (s.toRat 10)))
  next hrange =>
    have hplaces : ((layout.digits - 1 - Int.log 10 (s.toRat 10)).toNat : Int) = -s.exponent := by
      omega
    generalize (layout.digits - 1 - Int.log 10 (s.toRat 10)).toNat = places at hplaces ⊢
    have hn : (Plain.ofUnits places s.coefficient).toRat = s.toRat 10 := by
      rw [Plain.toRat_ofUnits, ← zpow_natCast, hplaces, zpow_neg, div_inv_eq_mul, Scaled.toRat]
      rfl
    exact .plain (.ofUnits places s.coefficient) (by omega) (by omega) hn
      (Plain.trimFraction_positional places s.coefficient)

/-- A layout writes the number that its first rounding gives, in the notation of that number. -/
theorem renders_render (hdigits : 0 < layout.digits) (hwidth : 0 < layout.exponentDigits) {q r : Rat}
    (hq : 0 < q) (hr : IsRounding 10 layout.digits q r) :
    layout.Renders r (layout.render q).toList := by
  have hspec := roundToDigits_spec (show 1 < 10 by decide) hdigits hq
  rw [← hspec.2.unique hr (by decide) hdigits, layout.render_eq_write hdigits hq]
  exact layout.renders_write hdigits hwidth hspec.1

end GeneralLayout

end ArithVM.Decimal
