import ArithVM.Proofs.Grammar.Reading

/-!
# Nesting — what a reading already needs

Before a sentence is complete it is known how many levels its tree has at least, and which numbers
stand in it.  Both only grow while tokens are read, and when the sentence is finished they are those
of its tree.
-/

namespace ArithVM

namespace Context

/-- How many levels are open outside of the required operand. -/
def depth : Context → Nat
  | .program => 0
  | .group outer => outer.depth + 1
  | .negation _ outer => outer.depth + 1
  | .operand _ _ _ outer => outer.depth + 1

/-- The most levels that were open at once while the finished left operands were read. -/
def level : Context → Nat
  | .program => 0
  | .group outer => outer.level
  | .negation _ outer => outer.level
  | .operand _ _ left outer => max outer.level (outer.depth + left.level)

/-- The number tokens of the finished left operands, from left to right. -/
def numbers : Context → List Token
  | .program => []
  | .group outer => outer.numbers
  | .negation _ outer => outer.numbers
  | .operand _ _ left outer => outer.numbers ++ left.numbers

theorem level_close {kind : TokenKind} {context closed : Context} {e whole : Expr}
    (h : context.close kind e = (closed, whole)) :
    max closed.level (closed.depth + whole.level) =
      max context.level (context.depth + e.level) := by
  -- A level that a phrase adds to its tree is one that was open around its operand.
  induction context generalizing e with
  | program => cases h; rfl
  | group => cases h; rfl
  | negation sign outer ih =>
    rw [close] at h
    rw [ih h]
    simp only [level, depth, Expr.level]
    omega
  | operand op sign left outer ih =>
    rw [close] at h
    split at h
    · cases h; rfl
    · rw [ih h]
      simp only [level, depth, Expr.level]
      omega

theorem numbers_close {kind : TokenKind} {context closed : Context} {e whole : Expr}
    (h : context.close kind e = (closed, whole)) :
    closed.numbers ++ whole.numbers = context.numbers ++ e.numbers := by
  induction context generalizing e with
  | program => cases h; rfl
  | group => cases h; rfl
  | negation sign outer ih =>
    rw [close] at h
    rw [ih h]
    rfl
  | operand op sign left outer ih =>
    rw [close] at h
    split at h
    · cases h; rfl
    · rw [ih h, numbers, Expr.numbers, List.append_assoc]

theorem depth_close_le {kind : TokenKind} {context closed : Context} {e whole : Expr}
    (h : context.close kind e = (closed, whole)) : closed.depth ≤ context.depth := by
  induction context generalizing e with
  | program => cases h; exact Nat.le_refl _
  | group => cases h; exact Nat.le_refl _
  | negation sign outer ih => exact Nat.le_succ_of_le (ih h)
  | operand op sign left outer ih =>
    rw [close] at h
    split at h
    · cases h; exact Nat.le_refl _
    · exact Nat.le_succ_of_le (ih h)

end Context

namespace Reading

/-- The levels that the tree of the sentence has at least.  A required operand opens one more. -/
def level : Reading → Nat
  | .operand context => max context.level (context.depth + 1)
  | .operator context e => max context.level (context.depth + e.level)
  | .finished e => e.level

def numbers : Reading → List Token
  | .operand context => context.numbers
  | .operator context e => context.numbers ++ e.numbers
  | .finished e => e.numbers

theorem level_le_of_step {r s : Reading} {t : Token} (h : r.step t = some s) :
    r.level ≤ s.level := by
  cases move_of_step h with
  | number => exact Nat.le_refl _
  | group => simp only [level, Context.level, Context.depth]; omega
  | negation => simp only [level, Context.level, Context.depth]; omega
  | operand hclose =>
    have hlevel := Context.level_close hclose
    simp only [level, Context.level, Context.depth]
    omega
  | closing hclose =>
    have hlevel := Context.level_close hclose
    simp only [level, Context.level, Context.depth, Expr.level] at hlevel ⊢
    omega
  | finish hclose =>
    have hlevel := Context.level_close hclose
    simp only [level, Context.level, Context.depth] at hlevel ⊢
    omega

theorem level_le_of_run {r s : Reading} {ts : List Token} (h : r.run ts = some s) :
    r.level ≤ s.level := by
  induction ts generalizing r with
  | nil => cases h; exact Nat.le_refl _
  | cons t ts ih =>
    rcases Option.bind_eq_some_iff.1 h with ⟨r', hstep, hrun⟩
    exact Nat.le_trans (level_le_of_step hstep) (ih hrun)

theorem numbers_of_step {r s : Reading} {t : Token} (h : r.step t = some s) :
    s.numbers = r.numbers ++ [t].filter (·.kind = .number) := by
  cases move_of_step h with
  | number ht => simp [numbers, Expr.numbers, ht]
  | group ht => simp [numbers, Context.numbers, ht]
  | negation ht => simp [numbers, Context.numbers, ht]
  | operand hclose ht =>
    -- A sign is no number.
    have hkind : t.kind ≠ .number := by
      intro hnumber
      rw [hnumber] at ht
      contradiction
    simp [numbers, Context.numbers, Context.numbers_close hclose, hkind]
  | closing hclose ht =>
    have hnumbers := Context.numbers_close hclose
    simp only [Context.numbers] at hnumbers
    simp [numbers, Expr.numbers, hnumbers, ht]
  | finish hclose ht =>
    have hnumbers := Context.numbers_close hclose
    simp only [Context.numbers, List.nil_append] at hnumbers
    simp [numbers, hnumbers, ht]

theorem numbers_of_run {r s : Reading} {ts : List Token} (h : r.run ts = some s) :
    s.numbers = r.numbers ++ ts.filter (·.kind = .number) := by
  induction ts generalizing r with
  | nil => cases h; rw [List.filter_nil, List.append_nil]
  | cons t ts ih =>
    rcases Option.bind_eq_some_iff.1 h with ⟨r', hstep, hrun⟩
    rw [ih hrun, numbers_of_step hstep, List.append_assoc, ← List.filter_append]
    rfl

end Reading

end ArithVM
