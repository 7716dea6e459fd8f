/-!
# Values — the numbers that programs compute with

Every value is a binary64 number, and the arithmetic on values is the IEEE 754 arithmetic of
`Float`: a division by zero gives an infinity or a NaN and is not an error.  All NaNs are one value.
-/

namespace ArithVM

/-- A binary64 number. -/
abbrev Value := Float

namespace Value

/-- What a value denotes. -/
inductive Meaning where
  | nan
  | infinity (negative : Bool)
  | zero (negative : Bool)
  /-- A finite number other than zero; the magnitude is positive. -/
  | number (negative : Bool) (magnitude : Rat)
deriving DecidableEq

/-- Whether a sign is the minus sign. -/
def isMinus : Float.Model.UnpackedFloat.Sign → Bool
  | .positive => false
  | .negative => true

/-- The exact meaning of a value: a mantissa times a power of two, outside the special cases. -/
def meaning (v : Value) : Meaning :=
  match v.toModel.unpack with
  | .notANumber => .nan
  | .infinity sign => .infinity (isMinus sign)
  | .zero sign => .zero (isMinus sign)
  | .finite sign mantissa exponent _ =>
    .number (isMinus sign) ((mantissa : Rat) * (2 : Rat) ^ exponent)

end Value

end ArithVM
