import ArithVM.Precedence
import ArithVM.Value.Literal

/-!
# Expressions — what a source means

An expression is a tree over the tokens it was read from.  Its value is found from the leaves
upwards, its code is the tree in post-order.  Parentheses shape the tree and leave no trace in
either.
-/

namespace ArithVM

/-- An expression, with the tokens that code and lines are made from. -/
inductive Expr where
  | number (literal : Token)
  | group (inner : Expr)
  | negate (sign : Token) (operand : Expr)
  | binary (op : Operator) (sign : Token) (left right : Expr)
deriving DecidableEq, Repr

namespace Expr

/-- The value of an expression. -/
def eval : Expr → Value
  | .number literal => Value.ofLiteral literal.text
  | .group inner => inner.eval
  | .negate _ operand => -operand.eval
  | .binary op _ left right => op.apply left.eval right.eval

/-- The number tokens of an expression, from left to right. -/
def numbers : Expr → List Token
  | .number literal => [literal]
  | .group inner => inner.numbers
  | .negate _ operand => operand.numbers
  | .binary _ _ left right => left.numbers ++ right.numbers

/-- How many levels are open at once while the expression is read.  A left operand is complete
    before its operation is met, so a chain of operations does not nest, however long it is. -/
def level : Expr → Nat
  | .number _ => 1
  | .group inner => inner.level + 1
  | .negate _ operand => operand.level + 1
  | .binary _ _ left right => max left.level (right.level + 1)

/-- The instructions of an expression, each with its line, if the constants before `first` are
    taken. -/
def postorder (first : Nat) : Expr → List (Instruction × Nat)
  | .number literal => [(.constant (UInt8.ofNat first), literal.line)]
  | .group inner => inner.postorder first
  | .negate sign operand => operand.postorder first ++ [(.negate, sign.line)]
  | .binary op sign left right =>
    left.postorder first ++ right.postorder (first + left.numbers.length)
      ++ [(.operator op, sign.line)]

/-- An expression is made of at least one number. -/
theorem numbers_ne_nil (e : Expr) : e.numbers ≠ [] := by
  induction e <;> simp_all [numbers]

theorem level_pos (e : Expr) : 0 < e.level := by
  induction e <;> simp only [level] <;> omega

end Expr

end ArithVM
