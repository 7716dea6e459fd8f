import ArithVM.Proofs.Machine.Lockstep
import ArithVM.Session

/-!
# Histories of a machine — its stack between runs and during them

The stack of a machine is also pushed to and popped from between runs, and a run that is stopped
leaves what it had on it.  Whatever was done, there are never more than 256 values; only a full stack
refuses a value and only an empty one has none, and what is pushed comes off first.
-/

namespace ArithVM

namespace Instruction

theorem Faults.length_le {constants : Pool} {i : Instruction} {stack stack' : Stack} {fault : Fault}
    (h : Faults constants i stack fault stack') (hstack : stack.length ≤ 256) :
    stack'.length ≤ 256 := by
  cases h with
  | underflow => exact Nat.zero_le _
  | badConstant => exact hstack
  | overflow => exact hstack

end Instruction

namespace Machine

variable {c : Chunk} {m : Machine}

/-! ## Runs -/

theorem Stops.length_le {last : Machine} {result : Except RuntimeError (Option Value)}
    (h : Stops c m result last) (hstack : m.stack.length ≤ 256) : last.stack.length ≤ 256 := by
  cases h with
  | ret => exact hstack
  | faults _ hi => exact hi.length_le hstack
  | undecodable => exact hstack

theorem length_runFrom_le (hstack : m.stack.length ≤ 256) :
    (runFrom c m).machine.stack.length ≤ 256 := by
  fun_induction runFrom c m with
  | case1 m next hstep later ih => exact ih (walks_of_step_eq_next hstack hstep).2.1
  | case2 m result last hstep => exact (stops_of_step_eq_stop hstack hstep).length_le hstack

/-- A run starts on an empty stack, so nothing is asked of the machine. -/
theorem length_execute_le (m : Machine) (c : Chunk) :
    (m.execute c).machine.stack.length ≤ 256 :=
  length_runFrom_le (Nat.zero_le _)

/-! ## Pushing and popping -/

theorem push_of_lt (h : m.stack.length < 256) (v : Value) :
    m.push v = (.ok (), { m with stack := v :: m.stack }) := by
  rw [push, change, push_eq_ok h]

theorem push_of_eq (h : m.stack.length = 256) (v : Value) :
    m.push v = (.error .stackOverflow, m) := by
  have hfull : ¬ m.stack.length < Fault.maxStack := by rw [h]; decide
  rw [push, change, Stack.push, if_neg hfull]

theorem pop_of_nil (h : m.stack = []) : m.pop = (.error .stackUnderflow, m) := by
  obtain ⟨stack, ip, tracing⟩ := m
  cases h
  rfl

theorem pop_of_cons {v : Value} {stack : Stack} (h : m.stack = v :: stack) :
    m.pop = (.ok v, { m with stack }) := by
  rw [pop, change, h]
  rfl

/-- A value that was just pushed is on top of the machine as it was. -/
theorem pop_push (h : m.stack.length < 256) (v : Value) : (m.push v).2.pop = (.ok v, m) := by
  rw [push_of_lt h]
  exact pop_of_cons rfl

/-- Pushing is refused by a full stack only. -/
theorem push_eq_error_iff (h : m.stack.length ≤ 256) (v : Value) :
    (∃ fault, (m.push v).1 = .error fault) ↔ m.stack.length = 256 := by
  obtain hlt | heq := Nat.lt_or_eq_of_le h
  · rw [push_of_lt hlt]
    exact iff_of_false nofun (Nat.ne_of_lt hlt)
  · rw [push_of_eq heq]
    exact iff_of_true ⟨_, rfl⟩ heq

/-- Popping is refused by an empty stack only, and otherwise gives what could be seen before. -/
theorem pop_eq_error_iff (m : Machine) :
    ((∃ fault, m.pop.1 = .error fault) ↔ m.stack.length = 0) ∧
      m.peek? = m.pop.1.toOption := by
  cases hstack : m.stack with
  | nil =>
    rw [pop_of_nil hstack, peek?, hstack]
    exact ⟨iff_of_true ⟨_, rfl⟩ rfl, rfl⟩
  | cons v stack =>
    rw [pop_of_cons hstack, peek?, hstack]
    exact ⟨iff_of_false nofun (Nat.succ_ne_zero _), rfl⟩

/-! ## Histories -/

/-- What may be asked of a machine. -/
inductive Use where
  | push (v : Value)
  | pop
  | peek
  | execute (c : Chunk)
  | interpret (c : Chunk)

namespace Use

/-- The machine after it was used. -/
def on (m : Machine) : Use → Machine
  | .push v => (m.push v).2
  | .pop => m.pop.2
  | .peek => m
  | .execute c => (m.execute c).machine
  | .interpret c => (m.interpret c).2

theorem length_on_le (h : m.stack.length ≤ 256) (use : Use) : (use.on m).stack.length ≤ 256 := by
  cases use with
  | push v =>
    obtain hlt | heq := Nat.lt_or_eq_of_le h
    · rw [on, push_of_lt hlt]
      exact hlt
    · rw [on, push_of_eq heq]
      exact h
  | pop =>
    cases hstack : m.stack with
    | nil => rw [on, pop_of_nil hstack]; exact h
    | cons v stack =>
      rw [hstack] at h
      rw [on, pop_of_cons hstack]
      exact Nat.le_of_succ_le h
  | peek => exact h
  | execute c => exact length_execute_le m c
  | interpret c =>
    have hrun := length_execute_le m c
    rw [on, Machine.interpret]
    cases (m.execute c).result <;> exact hrun

end Use

/-- The machine after it was used some times. -/
def after (m : Machine) (uses : List Use) : Machine :=
  uses.foldl Use.on m

theorem length_after_le (h : m.stack.length ≤ 256) (uses : List Use) :
    (m.after uses).stack.length ≤ 256 := by
  induction uses generalizing m with
  | nil => exact h
  | cons use uses ih => exact ih (use.length_on_le h)

/-- **A bounded stack.**  However a machine was used, its stack holds at most 256 values, and so it
    does at every step of a run that is started then.  Pushing fails exactly on a full stack and
    popping on an empty one, and then nothing is changed; a value that is pushed comes off again and
    leaves the machine as it was; and what can be seen is what would come off next. -/
theorem bounded_after (tracing : Bool) (uses : List Use) :
    let m := (new tracing).after uses
    m.stack.length ≤ 256 ∧
    (∀ c m', Reaches c { m with stack := [], ip := 0 } m' → m'.stack.length ≤ 256) ∧
    (∀ v, ((∃ fault, (m.push v).1 = .error fault) ↔ m.stack.length = 256) ∧
      (m.stack.length = 256 → m.push v = (.error .stackOverflow, m)) ∧
      (m.stack.length ≠ 256 → (m.push v).1 = .ok () ∧ (m.push v).2.pop = (.ok v, m))) ∧
    ((∃ fault, m.pop.1 = .error fault) ↔ m.stack.length = 0) ∧
    (m.stack.length = 0 → m.pop = (.error .stackUnderflow, m)) ∧
    m.peek? = m.pop.1.toOption := by
  intro m
  have hbound : m.stack.length ≤ 256 := length_after_le (Nat.zero_le _) uses
  refine ⟨hbound, fun c m' hreaches => hreaches.length_le (Nat.zero_le _), ?_,
    m.pop_eq_error_iff.1, fun hempty => pop_of_nil (List.eq_nil_of_length_eq_zero hempty),
    m.pop_eq_error_iff.2⟩
  intro v
  refine ⟨push_eq_error_iff hbound v, fun hfull => push_of_eq hfull v, ?_⟩
  intro hroom
  have hlt : m.stack.length < 256 := Nat.lt_of_le_of_ne hbound hroom
  exact ⟨by rw [push_of_lt hlt], pop_push hlt v⟩

end Machine

end ArithVM
