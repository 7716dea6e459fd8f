import ArithVM.Instruction
import ArithVM.Token

/-!
# Precedence — how tightly operations bind

Multiplication and division bind tighter than addition and subtraction, and a minus sign in front of
an operand binds tighter than any of them.  Operations of one precedence associate to the left.
-/

namespace ArithVM

/-- How tightly a construct binds, the loosest first. -/
inductive Precedence where
  | term | factor | unary
deriving DecidableEq, Repr

namespace Precedence

/-- The place in the order from loose to tight. -/
def rank : Precedence → Nat
  | .term => 0
  | .factor => 1
  | .unary => 2

/-- The next tighter precedence; nothing binds tighter than `unary`. -/
def tighter : Precedence → Precedence
  | .term => .factor
  | .factor => .unary
  | .unary => .unary

end Precedence

/-- How tightly an operation binds its operands. -/
def Operator.precedence : Operator → Precedence
  | .add => .term
  | .subtract => .term
  | .multiply => .factor
  | .divide => .factor

theorem Operator.rank_precedence_lt (op : Operator) :
    op.precedence.rank < op.precedence.tighter.rank := by
  cases op <;> decide

/-- The operation that a token between two operands stands for. -/
def TokenKind.operator? : TokenKind → Option Operator
  | .symbol .plus => some .add
  | .symbol .minus => some .subtract
  | .symbol .star => some .multiply
  | .symbol .slash => some .divide
  | _ => none

end ArithVM
