import ArithVM.Machine

/-!
# Steps — runs in parts

A run is a sequence of steps and a stop.  Steps do not change what a run comes to, so a run may be
followed part by part.
-/

namespace ArithVM.Machine

/-- Some steps lead from one machine to another, and behind each of them the stack holds no more
    than `bound` values. -/
inductive Steps (c : Chunk) (bound : Nat) : Machine → Machine → Prop where
  | refl (m : Machine) : Steps c bound m m
  | cons {m next last : Machine} (hstep : m.step c = .next next)
    (hbound : next.stack.length ≤ bound) (hrest : Steps c bound next last) :
    Steps c bound m last

theorem Steps.single {c : Chunk} {bound : Nat} {m next : Machine} (hstep : m.step c = .next next)
    (hbound : next.stack.length ≤ bound) : Steps c bound m next :=
  .cons hstep hbound (.refl next)

theorem Steps.trans {c : Chunk} {bound : Nat} {m middle last : Machine}
    (h : Steps c bound m middle) (h' : Steps c bound middle last) : Steps c bound m last := by
  induction h with
  | refl => exact h'
  | cons hstep hbound _ ih => exact .cons hstep hbound (ih h')

theorem runFrom_of_next {c : Chunk} {m next : Machine} (h : m.step c = .next next) :
    runFrom c m =
      { runFrom c next with trace := messages c m ++ (runFrom c next).trace } := by
  rw [runFrom]
  split
  next m' hstep =>
    rw [h] at hstep
    cases hstep
    rfl
  next hstep =>
    rw [h] at hstep
    contradiction

theorem runFrom_of_stop {c : Chunk} {m last : Machine}
    {result : Except RuntimeError (Option Value)} (h : m.step c = .stop result last) :
    runFrom c m = ⟨result, last, messages c m⟩ := by
  rw [runFrom]
  split
  next hstep =>
    rw [h] at hstep
    contradiction
  next hstep =>
    rw [h] at hstep
    cases hstep
    rfl

theorem result_runFrom_of_next {c : Chunk} {m next : Machine} (h : m.step c = .next next) :
    (runFrom c m).result = (runFrom c next).result ∧
      (runFrom c m).machine = (runFrom c next).machine := by
  rw [runFrom_of_next h]
  exact ⟨rfl, rfl⟩

theorem result_runFrom_of_stop {c : Chunk} {m last : Machine}
    {result : Except RuntimeError (Option Value)} (h : m.step c = .stop result last) :
    (runFrom c m).result = result ∧ (runFrom c m).machine = last := by
  rw [runFrom_of_stop h]
  exact ⟨rfl, rfl⟩

theorem Steps.result_runFrom {c : Chunk} {bound : Nat} {m last : Machine}
    (h : Steps c bound m last) :
    (runFrom c m).result = (runFrom c last).result ∧
      (runFrom c m).machine = (runFrom c last).machine := by
  induction h with
  | refl => exact ⟨rfl, rfl⟩
  | cons hstep _ _ ih =>
    rcases result_runFrom_of_next hstep with ⟨hresult, hmachine⟩
    exact ⟨hresult.trans ih.1, hmachine.trans ih.2⟩

/-! ## One instruction -/

theorem step_of_perform {c : Chunk} {m : Machine} {i : Instruction} {stack : Stack}
    (hdecode : c.decode m.ip = .ok i) (hi : i ≠ .ret)
    (hperform : i.perform c.constants m.stack = .ok () stack) :
    m.step c = .next { m with stack, ip := m.ip + i.size } := by
  simp only [step, hdecode, if_neg hi, hperform]

theorem step_of_ret {c : Chunk} {m : Machine} (hdecode : c.decode m.ip = .ok .ret) :
    m.step c = .stop (.ok m.peek?) { m with ip := m.ip + 1 } := by
  simp only [step, hdecode, if_true]
  rfl

theorem push_eq_ok {stack : Stack} (h : stack.length < Fault.maxStack) (v : Value) :
    Stack.push v stack = .ok () (v :: stack) := by
  rw [Stack.push, if_pos h]

theorem step_constant {c : Chunk} {m : Machine} {index : UInt8} {v : Value}
    (hdecode : c.decode m.ip = .ok (.constant index))
    (hv : c.constants.get? index.toNat = some v) (hroom : m.stack.length < Fault.maxStack) :
    m.step c = .next { m with stack := v :: m.stack, ip := m.ip + 2 } := by
  have hperform : (Instruction.constant index).perform c.constants m.stack =
      .ok () (v :: m.stack) := by
    simp only [Instruction.perform, hv]
    exact push_eq_ok hroom v
  exact step_of_perform hdecode (by simp) hperform

theorem step_operator {c : Chunk} {m : Machine} {op : Operator} {left right : Value}
    {stack : Stack} (hdecode : c.decode m.ip = .ok (.operator op))
    (hstack : m.stack = right :: left :: stack) (hroom : stack.length < Fault.maxStack) :
    m.step c = .next { m with stack := op.apply left right :: stack, ip := m.ip + 1 } := by
  have hperform : (Instruction.operator op).perform c.constants m.stack =
      .ok () (op.apply left right :: stack) := by
    rw [hstack]
    exact push_eq_ok hroom _
  exact step_of_perform hdecode (by simp) hperform

theorem step_negate {c : Chunk} {m : Machine} {v : Value} {stack : Stack}
    (hdecode : c.decode m.ip = .ok .negate) (hstack : m.stack = v :: stack)
    (hroom : stack.length < Fault.maxStack) :
    m.step c = .next { m with stack := -v :: stack, ip := m.ip + 1 } := by
  have hperform : Instruction.negate.perform c.constants m.stack = .ok () (-v :: stack) := by
    rw [hstack]
    exact push_eq_ok hroom _
  exact step_of_perform hdecode (by simp) hperform

end ArithVM.Machine
