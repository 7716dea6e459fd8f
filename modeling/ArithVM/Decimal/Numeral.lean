import ArithVM.Decimal.Rounding
import ArithVM.Text.Padding

/-!
# Numerals — decimal texts of positive rationals

Three layouts: positional with a fixed number of places, exponential with a fixed number of digits,
and the general layout that picks one of the two by the size of the number and then drops the zeros
that carry nothing.  Each layout rounds the exact number once, at its own last digit.
-/

namespace ArithVM.Decimal

open Text

/-- The numeral of `units · 10 ^ (-places)`, with every place written out. -/
def positional (places units : Nat) : String :=
  let scale := Nat.pow 10 places
  let whole := toString (units / scale)
  if places = 0 then whole
  else whole ++ "." ++ padLeft places '0' (toString (units % scale))

/-- Drops the zeros at the end of a fraction, and the point if nothing follows it. -/
def trimFraction (numeral : String) : String :=
  let digits := numeral.toList
  if '.' ∈ digits then
    String.ofList (dropTrailing (· = '.') (dropTrailing (· = '0') digits))
  else
    numeral

/-- The choices of a general layout. -/
structure GeneralLayout where
  /-- Significant digits; a number of more digits before the point is written exponentially. -/
  digits : Nat
  /-- The least decimal exponent that is still written positionally. -/
  leastPositional : Int
  /-- The least number of digits of a written exponent. -/
  exponentDigits : Nat

namespace GeneralLayout

/-- The mantissa of a rounded number and its decimal exponent, joined by `e`. -/
def exponential (layout : GeneralLayout) (coefficient : Nat) (exponent : Int) : String :=
  trimFraction (positional (layout.digits - 1) coefficient)
    ++ (if exponent < 0 then "e-" else "e+")
    ++ padLeft layout.exponentDigits '0' (toString exponent.natAbs)

/-- The text of positive `q`.  Rounding to the significant digits fixes the decimal exponent; a
    number in the positional range is then rounded afresh at its last significant place. -/
def render (layout : GeneralLayout) (q : Rat) : String :=
  let rounded := roundToDigits 10 layout.digits q
  let exponent := rounded.exponent + layout.digits - 1
  if exponent < layout.leastPositional ∨ layout.digits ≤ exponent then
    layout.exponential rounded.coefficient exponent
  else
    let places := (layout.digits - 1 - exponent).toNat
    trimFraction (positional places (roundHalfEven (q * (10 : Rat) ^ places)).toNat)

end GeneralLayout

end ArithVM.Decimal
