import ArithVM.Proofs.Compile.Acceptance
import ArithVM.Proofs.Machine.Steps

/-!
# Evaluation — the code of an expression computes its value

The post-order code of an expression pushes the value of the expression, whatever lies on the stack
before.  While it runs the stack grows by the height of the expression at most, and that is bounded
by its levels as well as by its numbers.
-/

namespace ArithVM

open Chunk

/-! ## Heights -/

namespace Expr

/-- How many values its code has on the stack at most, beyond those that are there before. -/
def height : Expr → Nat
  | .number _ => 1
  | .group inner => inner.height
  | .negate _ operand => operand.height
  | .binary _ _ left right => max left.height (right.height + 1)

theorem height_pos (e : Expr) : 0 < e.height := by
  induction e with
  | number literal => exact Nat.one_pos
  | group inner ih => exact ih
  | negate sign operand ih => exact ih
  | binary op sign left right ihleft ihright =>
    rw [height]
    omega

theorem height_le_level (e : Expr) : e.height ≤ e.level := by
  induction e with
  | number literal => exact Nat.le_refl 1
  | group inner ih => exact Nat.le_succ_of_le ih
  | negate sign operand ih => exact Nat.le_succ_of_le ih
  | binary op sign left right ihleft ihright =>
    rw [height, level]
    omega

theorem height_le_length_numbers (e : Expr) : e.height ≤ e.numbers.length := by
  induction e with
  | number literal => exact Nat.le_refl 1
  | group inner ih => exact ih
  | negate sign operand ih => exact ih
  | binary op sign left right ihleft ihright =>
    have hleft : 0 < left.numbers.length := List.length_pos_iff.2 left.numbers_ne_nil
    rw [height, numbers, List.length_append]
    omega

end Expr

/-! ## The code of an expression -/

namespace Machine

theorem steps_postorder {c : Chunk} {bound : Nat} (hbound : bound ≤ Fault.maxStack) (e : Expr)
    {first : Nat} {m : Machine} (hcode : c.HasCode m.ip (e.postorder first))
    (hvalues : c.constants.Holds first (e.numbers.map Token.value))
    (hfirst : first + e.numbers.length ≤ maxConstants)
    (hheight : m.stack.length + e.height ≤ bound) :
    Steps c bound m
      { m with stack := e.eval :: m.stack, ip := m.ip + extent (e.postorder first) } := by
  induction e generalizing first m with
  | number literal =>
    have hvalue : c.constants.get? (UInt8.ofNat first).toNat = some literal.value :=
      hvalues.get?_operand hfirst
    have hroom : m.stack.length < Fault.maxStack := by
      rw [Expr.height] at hheight
      omega
    exact .single (step_constant hcode.1 hvalue hroom) hheight
  | group inner ih => exact ih hcode hvalues hfirst hheight
  | negate sign operand ih =>
    rw [Expr.postorder, hasCode_append] at hcode
    rw [Expr.height] at hheight
    have hpos := operand.height_pos
    have hoperand := ih hcode.1 hvalues hfirst hheight
    have hnegate := step_negate hcode.2.1
      (m := { m with stack := operand.eval :: m.stack, ip := _ }) rfl (by omega)
    refine hoperand.trans ?_
    rw [Expr.postorder, extent_append, ← Nat.add_assoc]
    exact .single hnegate (by rw [List.length_cons]; omega)
  | binary op sign left right ihleft ihright =>
    rw [Expr.postorder, hasCode_append, hasCode_append, extent_append] at hcode
    rw [Expr.numbers, List.map_append, Pool.holds_append, List.length_map] at hvalues
    rw [Expr.numbers, List.length_append] at hfirst
    rw [Expr.height] at hheight
    have hpos := right.height_pos
    have hleft := ihleft hcode.1.1 hvalues.1 (by omega) (by omega)
    -- The right operand is computed on top of the value of the left one.
    have hright := ihright
      (m := { m with stack := left.eval :: m.stack, ip := m.ip + extent (left.postorder first) })
      hcode.1.2 hvalues.2 (by omega) (by rw [List.length_cons]; omega)
    have hoperator := step_operator hcode.2.1
      (m := { m with stack := right.eval :: left.eval :: m.stack, ip := _ }) rfl (by omega)
    refine hleft.trans (hright.trans ?_)
    rw [Expr.postorder, extent_append, extent_append]
    simp only [← Nat.add_assoc] at hoperator ⊢
    exact .single hoperator (by rw [List.length_cons]; omega)

theorem steps_chunk {e : Expr} (hnumbers : e.numbers.length ≤ maxConstants) (last : Nat)
    {bound : Nat} (hbound : bound ≤ Fault.maxStack) (hheight : e.height ≤ bound) (m : Machine) :
    Steps (e.chunk last) bound { m with stack := [], ip := 0 }
      { m with stack := [e.eval], ip := extent (e.postorder 0) } := by
  have hcode : (e.chunk last).HasCode 0 (e.postorder 0 ++ [(.ret, last)]) :=
    hasCode_assemble _ [] _
  have hsteps := steps_postorder hbound e (m := { m with stack := [], ip := 0 })
    (hasCode_append.1 hcode).1 (e.holds_chunk last) (by rw [Nat.zero_add]; exact hnumbers)
    (by rw [List.length_nil, Nat.zero_add]; exact hheight)
  simpa only [Nat.zero_add] using hsteps

theorem execute_chunk {e : Expr} (hnumbers : e.numbers.length ≤ maxConstants) (last : Nat)
    (m : Machine) :
    (m.execute (e.chunk last)).result = .ok (some e.eval) ∧
      (m.execute (e.chunk last)).machine =
        { m with stack := [e.eval], ip := (e.chunk last).size } := by
  -- Every value on the stack has a constant of its own, so the stack cannot overflow.
  have hheight : e.height ≤ Fault.maxStack := Nat.le_trans e.height_le_length_numbers hnumbers
  have hsteps := steps_chunk hnumbers last (Nat.le_refl _) hheight m
  have hdecode : (e.chunk last).decode (extent (e.postorder 0)) = .ok .ret :=
    decode_assemble (e.postorder 0) [] (.ret, last) _
  have hstop := step_of_ret (m := { m with stack := [e.eval], ip := extent (e.postorder 0) })
    hdecode
  have hsize : (e.chunk last).size = extent (e.postorder 0) + 1 := by
    rw [Expr.chunk, size_assemble, extent_append]
    rfl
  rw [execute, hsize, hsteps.result_runFrom.1, hsteps.result_runFrom.2]
  exact result_runFrom_of_stop hstop

end Machine

/-- **Compiled sources compute their value.**  The tokens of a source that compiles have one tree,
    and any machine that executes the chunk ends with the value of that tree. -/
theorem execute_of_compile {source : String} {c : Chunk} (h : Chunk.compile source = .ok c) :
    ∃ e, Derives .term e (Tokens.ofSource source).body ∧
      (∀ e', Derives .term e' (Tokens.ofSource source).body → e' = e) ∧
      ∀ m : Machine, (m.execute c).result = .ok (some e.eval) ∧
        (m.execute c).machine.stack = [e.eval] ∧ (m.execute c).machine.ip = c.size := by
  rcases compile_eq_ok_iff.1 h with ⟨e, he, -, hnumbers, rfl⟩
  refine ⟨e, he, fun e' he' => he'.unique he, fun m => ?_⟩
  rcases Machine.execute_chunk hnumbers _ m with ⟨hresult, hmachine⟩
  rw [hmachine]
  exact ⟨hresult, rfl, rfl⟩

/-- A product whose left factor is a negated group. -/
theorem execute_negated_group :
    ∃ c, Chunk.compile "-(1 + 2) * 3" = .ok c ∧
      ∃ e, Derives .term e (Tokens.ofSource "-(1 + 2) * 3").body ∧
        (∀ e', Derives .term e' (Tokens.ofSource "-(1 + 2) * 3").body → e' = e) ∧
        ∀ m : Machine, (m.execute c).result = .ok (some e.eval) ∧
          (m.execute c).machine.stack = [e.eval] ∧ (m.execute c).machine.ip = c.size := by
  have hok : (Chunk.compile "-(1 + 2) * 3").isOk = true := by decide +kernel
  cases h : Chunk.compile "-(1 + 2) * 3" with
  | ok c => exact ⟨c, rfl, execute_of_compile h⟩
  | error error =>
    rw [h] at hok
    contradiction

end ArithVM
