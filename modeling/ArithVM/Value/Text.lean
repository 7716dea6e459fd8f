import ArithVM.Decimal.Numeral
import ArithVM.Value

/-!
# Printed values

A value is printed with six significant digits.  Between 0.0001 and a million, as the rounded
number falls, it is written positionally, outside of that with an exponent of two digits or more.
-/

namespace ArithVM.Value

/-- Values have six digits, positional down to the fourth place, and exponents of at least two
    digits. -/
def layout : Decimal.GeneralLayout where
  digits := 6
  leastPositional := -4
  exponentDigits := 2

/-- Puts a minus sign before the text of a negative number. -/
def signed (negative : Bool) (text : String) : String :=
  if negative then "-" ++ text else text

/-- The printed form of a value.  A NaN has no sign; a zero keeps its own. -/
def text (v : Value) : String :=
  match v.meaning with
  | .nan => "nan"
  | .infinity negative => signed negative "inf"
  | .zero negative => signed negative "0"
  | .number negative magnitude => signed negative (layout.render magnitude)

end ArithVM.Value
