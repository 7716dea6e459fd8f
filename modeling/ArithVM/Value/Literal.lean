import ArithVM.Decimal.Rounding
import ArithVM.Value

/-!
# Number literals

A literal is a run of digits, perhaps with a point and more digits.  Its exact rational is rounded
once to the nearest value: fifty-three binary digits, fewer near zero, and infinity past the
greatest finite value.
-/

namespace ArithVM.Value

/-- The precision of a value in binary digits. -/
def precision : Nat := 53

/-- The exponent of the smallest positive value, `2 ^ (-1074)`. -/
def leastExponent : Int := -1074

/-- The value nearest to a nonnegative rational, from half-way the one with the even mantissa. -/
def ofRat (q : Rat) : Value :=
  let exponent := max (Decimal.floorLog 2 q + 1 - precision) leastExponent
  let rounded := Decimal.roundAt 2 precision exponent q
  if h : 0 < rounded.coefficient then
    Float.ofModel (.pack (.finite .positive rounded.coefficient rounded.exponent h))
  else
    Float.ofModel (.pack (.zero .positive))

/-- The natural number that a run of digits denotes in base ten. -/
def digitsValue (digits : List Char) : Nat :=
  digits.foldl (fun n c => 10 * n + (c.toNat - '0'.toNat)) 0

/-- The exact number that a literal denotes: its digits without the point, over a power of ten. -/
def literalRat (literal : List Char) : Rat :=
  let whole := literal.takeWhile (· ≠ '.')
  let fraction := (literal.dropWhile (· ≠ '.')).drop 1
  (digitsValue (whole ++ fraction) : Rat) / (10 : Rat) ^ fraction.length

/-- The value that a literal denotes. -/
def ofLiteral (literal : String) : Value :=
  ofRat (literalRat literal.toList)

end ArithVM.Value
