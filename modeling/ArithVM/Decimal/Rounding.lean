/-!
# Rounding — the nearest number with a given count of digits

A positive rational is rounded to `coefficient · base ^ exponent`, where the coefficient has a
fixed number of digits in that base.  The rule is the same for six decimal digits on a page and for
fifty-three binary digits in a machine word: to the nearest, and from half-way to the even
coefficient.
-/

namespace ArithVM.Decimal

/-- The nearest integer; half-way between two of them, the even one. -/
def roundHalfEven (q : Rat) : Int :=
  let below := q.floor
  let excess := q - below
  if excess < 1 / 2 then below
  else if 1 / 2 < excess then below + 1
  else if below % 2 = 0 then below
  else below + 1

/-- How many digits `n` has in `base`; none for zero, and none in a base without digits. -/
def digitCount (base n : Nat) : Nat :=
  if h : 1 < base ∧ 0 < n then digitCount base (n / base) + 1 else 0
termination_by n
decreasing_by exact Nat.div_lt_self h.2 h.1

/-- For positive `q`, the greatest exponent `e` with `base ^ e ≤ q`.  From one upwards it is read
    off the digits of the integral part, below one off the digits of the reciprocal. -/
def floorLog (base : Nat) (q : Rat) : Int :=
  let numerator := q.num.toNat
  if q.den ≤ numerator then
    digitCount base (numerator / q.den) - 1
  else
    -(digitCount base ((q.den - 1) / numerator))

/-- A number written as `coefficient · base ^ exponent` in some agreed base. -/
structure Scaled where
  coefficient : Nat
  exponent : Int
deriving DecidableEq, Repr

/-- The multiple of `base ^ exponent` nearest to `q`.  A coefficient that rounds up to one digit
    too many is a power of the base and moves to the next exponent. -/
def roundAt (base digits : Nat) (exponent : Int) (q : Rat) : Scaled :=
  let coefficient := (roundHalfEven (q / (base : Rat) ^ exponent)).toNat
  -- Rounding up `99…9` gives a one and zeros, one digit too many.
  if coefficient = Nat.pow base digits then
    ⟨Nat.pow base (digits - 1), exponent + 1⟩
  else
    ⟨coefficient, exponent⟩

/-- Rounds positive `q` to `digits` significant digits. -/
def roundToDigits (base digits : Nat) (q : Rat) : Scaled :=
  roundAt base digits (floorLog base q + 1 - digits) q

end ArithVM.Decimal
