import ArithVM.Decimal.Numeral
import ArithVM.Proofs.Text.Trailing
import ArithVM.Proofs.Token.Sequence
import ArithVM.Value.Literal
import Mathlib.Algebra.Order.Field.Rat
import Mathlib.Tactic.FieldSimp
import Mathlib.Tactic.IntervalCases
import Mathlib.Tactic.Positivity
import Mathlib.Tactic.Ring

/-!
# Numerals as texts — what a layout writes and what number stands there

A plain numeral has no zero in front that could be left out and none at the end of its fraction; a
scientific one is a plain one with a single digit before the point, and an exponent.  Both denote a
rational.  The digits that a layout writes are those of a plain numeral with the zeros dropped.
-/

namespace ArithVM.Decimal

open Text Value

/-! ## Digits -/

theorem digitsValue_append (front digits : List Char) :
    digitsValue (front ++ digits) =
      10 ^ digits.length * digitsValue front + digitsValue digits := by
  show Nat.ofDigitChars 10 (front ++ digits) 0 =
    10 ^ digits.length * Nat.ofDigitChars 10 front 0 + Nat.ofDigitChars 10 digits 0
  rw [Nat.ofDigitChars_append, Nat.ofDigitChars_eq_ofDigitChars_zero]

theorem digitsValue_replicate_zero (count : Nat) :
    digitsValue (List.replicate count '0') = 0 := by
  show Nat.ofDigitChars 10 (List.replicate count '0') 0 = 0
  rw [Nat.ofDigitChars_replicate_zero, Nat.mul_zero]

theorem toList_toString (n : Nat) : (toString n).toList = Nat.toDigits 10 n := by
  rw [Nat.toString_eq_ofList_toDigits, String.toList_ofList]

theorem digitsValue_toString (n : Nat) : digitsValue (toString n).toList = n := by
  rw [toList_toString]
  exact Nat.ofDigitChars_ten_toDigits

theorem isDigits_toString (n : Nat) : IsDigits (toString n).toList := by
  rw [toList_toString]
  refine ⟨Nat.toDigits_ne_nil, ?_⟩
  intro c hc
  have hdigit := Nat.isDigit_of_mem_toDigits (by decide) (by decide) hc
  simpa [isDigit, Char.isDigit, Char.le_def] using hdigit

/-- A zero stands in front of no other digit. -/
theorem eq_zero_of_head?_toString (n : Nat) (h : (toString n).toList.head? = some '0') : n = 0 := by
  induction n using Nat.strong_induction_on with
  | h n ih =>
    rw [toList_toString] at h
    by_cases hn : n < 10
    · rw [Nat.toDigits_of_lt_base hn, List.head?_cons, Option.some.injEq] at h
      interval_cases n
      · rfl
      all_goals contradiction
    · rw [Nat.toDigits_of_base_le (by decide) (Nat.le_of_not_lt hn),
        List.head?_append_of_ne_nil _ Nat.toDigits_ne_nil] at h
      have hfront := ih (n / 10) (by omega) (by rwa [toList_toString])
      omega

theorem toList_padLeft (width n : Nat) :
    (padLeft width '0' (toString n)).toList =
      List.replicate (width - (toString n).length) '0' ++ (toString n).toList := by
  rw [padLeft, String.toList_append, fill, String.toList_ofList]

theorem digitsValue_padLeft (width n : Nat) :
    digitsValue (padLeft width '0' (toString n)).toList = n := by
  rw [toList_padLeft, digitsValue_append, digitsValue_replicate_zero, digitsValue_toString,
    Nat.mul_zero, Nat.zero_add]

theorem isDigits_padLeft (width n : Nat) :
    IsDigits (padLeft width '0' (toString n)).toList := by
  have hdigits := isDigits_toString n
  rw [toList_padLeft]
  refine ⟨List.append_ne_nil_of_right_ne_nil _ hdigits.1, ?_⟩
  intro c hc
  rcases List.mem_append.1 hc with hc | hc
  · rw [List.eq_of_mem_replicate hc]
    rfl
  · exact hdigits.2 c hc

theorem length_padLeft {width n : Nat} (hwidth : 0 < width) (h : n < 10 ^ width) :
    (padLeft width '0' (toString n)).toList.length = width := by
  have hle := (Nat.length_repr_le_iff hwidth).2 h
  rw [toList_padLeft, List.length_append, List.length_replicate, String.length_toList]
  change width - n.repr.length + n.repr.length = width
  omega

theorem ne_point_of_isDigit {c : Char} (hc : isDigit c) : c ≠ '.' := by
  rintro rfl
  contradiction

/-! ## Plain numerals -/

/-- A numeral in positional notation.  No zero stands in front of the whole part or behind the
    fraction. -/
structure Plain where
  whole : List Char
  fraction : List Char
  isDigits_whole : IsDigits whole
  isDigit_fraction : ∀ c ∈ fraction, isDigit c
  no_leading_zero : whole.head? = some '0' → whole = ['0']
  no_trailing_zero : fraction.getLast? ≠ some '0'

namespace Plain

/-- The numeral as it is written, without a point if there is no fraction. -/
def text (n : Plain) : List Char :=
  if n.fraction = [] then n.whole else n.whole ++ '.' :: n.fraction

def toRat (n : Plain) : Rat :=
  (digitsValue (n.whole ++ n.fraction) : Rat) / (10 : Rat) ^ n.fraction.length

theorem isNumeral_text (n : Plain) : IsNumeral n.text := by
  unfold text
  by_cases hfraction : n.fraction = []
  · rw [if_pos hfraction]
    exact ⟨n.whole, n.isDigits_whole, .inl rfl⟩
  · rw [if_neg hfraction]
    exact ⟨n.whole, n.isDigits_whole, .inr ⟨n.fraction, ⟨hfraction, n.isDigit_fraction⟩, rfl⟩⟩

theorem literalRat_text (n : Plain) : literalRat n.text = n.toRat := by
  have hwhole : ∀ c ∈ n.whole, decide (c ≠ '.') = true :=
    fun c hc => decide_eq_true (ne_point_of_isDigit (n.isDigits_whole.2 c hc))
  unfold literalRat text toRat
  by_cases hfraction : n.fraction = []
  · rw [if_pos hfraction, List.takeWhile_eq_self_iff.2 hwhole, List.dropWhile_eq_nil_iff.2 hwhole,
      hfraction]
    rfl
  · rw [if_neg hfraction, List.takeWhile_append_of_pos hwhole, List.dropWhile_append_of_pos hwhole]
    simp

/-- The digits of so many decimal places. -/
def places (count n : Nat) : List Char :=
  if count = 0 then [] else (padLeft count '0' (toString n)).toList

theorem length_places {count n : Nat} (h : n < 10 ^ count) : (places count n).length = count := by
  unfold places
  split
  next hzero => rw [hzero, List.length_nil]
  next hzero => exact length_padLeft (Nat.pos_of_ne_zero hzero) h

theorem digitsValue_places {count n : Nat} (h : n < 10 ^ count) :
    digitsValue (places count n) = n := by
  unfold places
  split
  next hzero =>
    rw [hzero, Nat.pow_zero, Nat.lt_one_iff] at h
    rw [h]
    rfl
  next hzero => exact digitsValue_padLeft count n

theorem isDigit_places (count n : Nat) : ∀ c ∈ places count n, isDigit c := by
  unfold places
  split
  next => simp
  next => exact (isDigits_padLeft count n).2

/-- The numeral of so many units of a decimal place. -/
def ofUnits (count units : Nat) : Plain where
  whole := (toString (units / 10 ^ count)).toList
  fraction := dropTrailing (· = '0') (places count (units % 10 ^ count))
  isDigits_whole := isDigits_toString _
  isDigit_fraction := fun c hc => isDigit_places _ _ c (mem_of_mem_dropTrailing hc)
  no_leading_zero := by
    intro h
    rw [eq_zero_of_head?_toString _ h]
    rfl
  no_trailing_zero := getLast?_dropTrailing '0' _

theorem toRat_ofUnits (count units : Nat) :
    (ofUnits count units).toRat = (units : Rat) / (10 : Rat) ^ count := by
  have hlt : units % 10 ^ count < 10 ^ count := Nat.mod_lt _ (by positivity)
  have hvalue := digitsValue_places hlt
  have hlength := length_places hlt
  rcases exists_dropTrailing_append '0' (places count (units % 10 ^ count)) with ⟨zeros, hzeros⟩
  unfold toRat ofUnits
  dsimp only
  generalize dropTrailing (· = '0') (places count (units % 10 ^ count)) = kept at hzeros ⊢
  rw [hzeros, digitsValue_append, digitsValue_replicate_zero, List.length_replicate] at hvalue
  rw [hzeros, List.length_append, List.length_replicate] at hlength
  -- The zeros that are dropped are a factor of the units and of the scale alike.
  have hunits : units = 10 ^ zeros * (10 ^ kept.length * (units / 10 ^ count) + digitsValue kept) := by
    calc units
        = 10 ^ count * (units / 10 ^ count) + units % 10 ^ count := (Nat.div_add_mod ..).symm
      _ = _ := by
          rw [← hvalue, ← hlength]
          ring
  rw [digitsValue_append, digitsValue_toString]
  generalize units / 10 ^ count = whole at hunits ⊢
  rw [hunits, ← hlength, pow_add]
  push_cast
  field_simp

/-- Trimming keeps the digits in front of the zeros, and the point only if there are such digits. -/
theorem toList_trimFraction {numeral : String} {whole fraction : List Char} (hwhole : IsDigits whole)
    (hfraction : ∀ c ∈ fraction, isDigit c) (h : numeral.toList = whole ++ '.' :: fraction) :
    (trimFraction numeral).toList =
      if dropTrailing (· = '0') fraction = [] then whole
      else whole ++ '.' :: dropTrailing (· = '0') fraction := by
  have hlast := getLast?_dropTrailing '0' fraction
  rcases exists_dropTrailing_append '0' fraction with ⟨zeros, hzeros⟩
  have hkept : ∀ c ∈ dropTrailing (· = '0') fraction, isDigit c :=
    fun c hc => hfraction c (mem_of_mem_dropTrailing hc)
  generalize dropTrailing (· = '0') fraction = kept at hlast hzeros hkept ⊢
  -- Only the zeros behind the point are trimmed: in front of them stands a digit or the point.
  have hzero : (whole ++ '.' :: kept).getLast? ≠ some '0' := by
    rw [List.getLast?_append_cons]
    cases kept with
    | nil => decide
    | cons c cs => rwa [List.getLast?_cons_cons]
  have hpoint : whole.getLast? ≠ some '.' :=
    fun hwhole' => ne_point_of_isDigit (hwhole.2 _ (List.mem_of_getLast? hwhole')) rfl
  unfold trimFraction
  dsimp only
  rw [h, if_pos (by simp), String.toList_ofList, hzeros, ← List.cons_append, ← List.append_assoc,
    dropTrailing_append_replicate hzero]
  split
  next hnil =>
    rw [hnil]
    exact dropTrailing_append_replicate hpoint 1
  next hne =>
    apply dropTrailing_of_getLast?
    rw [List.getLast?_append_cons, List.getLast?_cons_of_ne_nil hne]
    exact fun hlast' => ne_point_of_isDigit (hkept _ (List.mem_of_getLast? hlast')) rfl

theorem trimFraction_positional (count units : Nat) :
    (trimFraction (positional count units)).toList = (ofUnits count units).text := by
  have hwhole := isDigits_toString (units / 10 ^ count)
  by_cases hcount : count = 0
  · subst hcount
    have hpoint : '.' ∉ (toString (units / Nat.pow 10 0)).toList :=
      fun hmem => ne_point_of_isDigit (hwhole.2 _ hmem) rfl
    have hplaces : (ofUnits 0 units).fraction = [] := rfl
    rw [text, if_pos hplaces, positional, if_pos rfl, trimFraction, if_neg hpoint]
    rfl
  · have hplaces : places count (units % 10 ^ count) =
        (padLeft count '0' (toString (units % 10 ^ count))).toList := by
      rw [places, if_neg hcount]
    rw [positional, if_neg hcount]
    rw [toList_trimFraction hwhole (isDigit_places count (units % 10 ^ count))]
    · rfl
    · rw [String.toList_append, String.toList_append, List.append_assoc, hplaces]
      rfl

end Plain

/-! ## Numerals with an exponent -/

/-- A numeral with an exponent of at least `width` digits, filled up with zeros.  The mantissa has
    one digit in front of the point, and that is not a zero. -/
structure Scientific (width : Nat) where
  mantissa : Plain
  exponent : Int
  digits : List Char
  one_digit : ∃ d, d ≠ '0' ∧ mantissa.whole = [d]
  isDigits_digits : IsDigits digits
  digitsValue_digits : digitsValue digits = exponent.natAbs
  width_le : width ≤ digits.length
  no_leading_zero : width < digits.length → digits.head? ≠ some '0'

namespace Scientific

variable {width : Nat}

def text (n : Scientific width) : List Char :=
  n.mantissa.text ++ 'e' :: (if n.exponent < 0 then '-' else '+') :: n.digits

def toRat (n : Scientific width) : Rat :=
  n.mantissa.toRat * (10 : Rat) ^ n.exponent

end Scientific

theorem head?_padLeft {width n : Nat} (hwidth : 0 < width)
    (h : width < (padLeft width '0' (toString n)).toList.length) :
    (padLeft width '0' (toString n)).toList.head? ≠ some '0' := by
  rw [toList_padLeft, List.length_append, List.length_replicate, String.length_toList] at h
  have hfill : width - (toString n).length = 0 := by omega
  rw [toList_padLeft, hfill, List.replicate_zero, List.nil_append]
  -- Nothing was filled up, so a zero in front would be the whole of the number.
  intro hhead
  have hzero := eq_zero_of_head?_toString n hhead
  have hone : (toString n).length = 1 := by
    rw [hzero]
    rfl
  omega

theorem whole_ofUnits {count units : Nat} (hle : 10 ^ count ≤ units) (hlt : units < 10 ^ (count + 1)) :
    ∃ d, d ≠ '0' ∧ (Plain.ofUnits count units).whole = [d] := by
  have hpos : 0 < units / 10 ^ count := Nat.div_pos hle (by positivity)
  have hten : units / 10 ^ count < 10 := by
    rw [Nat.div_lt_iff_lt_mul (by positivity)]
    rwa [Nat.pow_succ, Nat.mul_comm] at hlt
  have hwhole : (Plain.ofUnits count units).whole = [(units / 10 ^ count).digitChar] := by
    show (toString (units / 10 ^ count)).toList = _
    rw [toList_toString, Nat.toDigits_of_lt_base hten]
  have hne : (units / 10 ^ count).digitChar ≠ '0' := by
    intro hzero
    have hhead : (toString (units / 10 ^ count)).toList.head? = some '0' := by
      rw [toList_toString, Nat.toDigits_of_lt_base hten, hzero, List.head?_cons]
    have hzero' := eq_zero_of_head?_toString _ hhead
    omega
  exact ⟨_, hne, hwhole⟩

namespace Scientific

/-- The numeral of a mantissa of so many units of a decimal place. -/
def ofUnits {width count units : Nat} (hwidth : 0 < width) (hle : 10 ^ count ≤ units)
    (hlt : units < 10 ^ (count + 1)) (exponent : Int) : Scientific width where
  mantissa := .ofUnits count units
  exponent := exponent
  digits := (padLeft width '0' (toString exponent.natAbs)).toList
  one_digit := whole_ofUnits hle hlt
  isDigits_digits := isDigits_padLeft _ _
  digitsValue_digits := digitsValue_padLeft _ _
  width_le := by
    rw [toList_padLeft, List.length_append, List.length_replicate, String.length_toList]
    omega
  no_leading_zero := head?_padLeft hwidth

theorem toRat_ofUnits {width count units : Nat} (hwidth : 0 < width) (hle : 10 ^ count ≤ units)
    (hlt : units < 10 ^ (count + 1)) (exponent : Int) :
    (ofUnits hwidth hle hlt exponent).toRat = (units : Rat) * (10 : Rat) ^ (exponent - count) := by
  show (Plain.ofUnits count units).toRat * (10 : Rat) ^ exponent = _
  rw [Plain.toRat_ofUnits, zpow_sub₀ (by norm_num), zpow_natCast]
  ring

end Scientific

theorem GeneralLayout.toList_exponential (layout : GeneralLayout) {units : Nat}
    (hwidth : 0 < layout.exponentDigits) (hle : 10 ^ (layout.digits - 1) ≤ units)
    (hlt : units < 10 ^ (layout.digits - 1 + 1)) (exponent : Int) :
    (layout.exponential units exponent).toList =
      (Scientific.ofUnits hwidth hle hlt exponent).text := by
  have hsign : (if exponent < 0 then "e-" else "e+").toList =
      ['e', if exponent < 0 then '-' else '+'] := by
    split <;> rfl
  rw [exponential, String.toList_append, String.toList_append, Plain.trimFraction_positional, hsign,
    List.append_assoc]
  unfold Scientific.text Scientific.ofUnits
  dsimp only
  rw [List.cons_append, List.cons_append, List.nil_append]

end ArithVM.Decimal
