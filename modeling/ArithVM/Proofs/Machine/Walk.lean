import ArithVM.Proofs.Chunk.Tiling
import ArithVM.Proofs.Machine.Steps

/-!
# Runs as walks

A run is a walk over the entries of its chunk.  `Instruction.Effect` and `Instruction.Faults` say
what an instruction makes of a stack, `Machine.Walks` says what the entries of a chunk come to, one
after the other.  Of a chunk, well-formed or not, every run ends, and it ends as its walk does.
-/

namespace ArithVM

/-! ## Instructions -/

namespace Instruction

/-- How many values an instruction needs. -/
def arity : Instruction → Nat
  | .constant _ => 0
  | .operator _ => 2
  | .negate => 1
  | .ret => 0

/-- What an instruction that is carried out makes of the stack. -/
inductive Effect (constants : Pool) : Instruction → Stack → Stack → Prop where
  | constant {index : UInt8} {v : Value} {stack : Stack}
    (hv : constants.get? index.toNat = some v) (hroom : stack.length < 256) :
    Effect constants (.constant index) stack (v :: stack)
  | operator {op : Operator} {left right : Value} {stack : Stack} :
    Effect constants (.operator op) (right :: left :: stack) (op.apply left right :: stack)
  | negate {v : Value} {stack : Stack} : Effect constants .negate (v :: stack) (-v :: stack)

/-- Why an instruction cannot be carried out, and the stack that it leaves. -/
inductive Faults (constants : Pool) : Instruction → Stack → Fault → Stack → Prop where
  | underflow {i : Instruction} {stack : Stack} (hneeds : stack.length < i.arity) :
    Faults constants i stack .stackUnderflow []
  | badConstant {index : UInt8} {stack : Stack} (hindex : constants.size ≤ index.toNat) :
    Faults constants (.constant index) stack (.badConstant index) stack
  | overflow {index : UInt8} {stack : Stack} (hindex : index.toNat < constants.size)
    (hfull : stack.length = 256) :
    Faults constants (.constant index) stack .stackOverflow stack

variable {constants : Pool} {i : Instruction} {stack stack' : Stack} {fault : Fault}

theorem Effect.ne_ret (h : Effect constants i stack stack') : i ≠ .ret := by
  intro hi
  subst hi
  cases h

theorem Faults.ne_ret (h : Faults constants i stack fault stack') : i ≠ .ret := by
  intro hi
  subst hi
  cases h with
  | underflow hneeds => exact absurd hneeds (Nat.not_lt_zero _)

theorem Effect.length_le (h : Effect constants i stack stack') (hstack : stack.length ≤ 256) :
    stack'.length ≤ 256 := by
  cases h with
  | constant _ hroom => exact hroom
  | operator => simp only [List.length_cons] at hstack ⊢; omega
  | negate => exact hstack

theorem Effect.unique (h : Effect constants i stack stack') {other : Stack}
    (h' : Effect constants i stack other) : other = stack' := by
  cases h with
  | constant hv _ =>
    cases h' with
    | constant hv' _ =>
      rw [hv] at hv'
      cases hv'
      rfl
  | operator => cases h'; rfl
  | negate => cases h'; rfl

theorem Effect.not_faults (h : Effect constants i stack stack') {left : Stack} :
    ¬ Faults constants i stack fault left := by
  intro hfaults
  cases h with
  | constant hv hroom =>
    have hsize := (Array.getElem?_eq_some_iff.1 hv).1
    cases hfaults with
    | underflow hneeds => exact absurd hneeds (Nat.not_lt_zero _)
    | badConstant hindex => exact absurd hsize (Nat.not_lt.2 hindex)
    | overflow _ hfull => omega
  | operator =>
    cases hfaults with
    | underflow hneeds => simp only [List.length_cons, arity] at hneeds; omega
  | negate =>
    cases hfaults with
    | underflow hneeds => simp only [List.length_cons, arity] at hneeds; omega

theorem Faults.unique (h : Faults constants i stack fault stack') {fault' : Fault} {other : Stack}
    (h' : Faults constants i stack fault' other) : fault' = fault ∧ other = stack' := by
  cases h with
  | underflow hneeds =>
    cases h' with
    | underflow => exact ⟨rfl, rfl⟩
    | badConstant => exact absurd hneeds (Nat.not_lt_zero _)
    | overflow => exact absurd hneeds (Nat.not_lt_zero _)
  | badConstant hindex =>
    cases h' with
    | underflow hneeds => exact absurd hneeds (Nat.not_lt_zero _)
    | badConstant => exact ⟨rfl, rfl⟩
    | overflow hindex' => exact absurd hindex' (Nat.not_lt.2 hindex)
  | overflow hindex _ =>
    cases h' with
    | underflow hneeds => exact absurd hneeds (Nat.not_lt_zero _)
    | badConstant hindex' => exact absurd hindex (Nat.not_lt.2 hindex')
    | overflow => exact ⟨rfl, rfl⟩

/-- An instruction other than a return is carried out or faults. -/
theorem effect_or_faults (constants : Pool) (hi : i ≠ .ret) (hstack : stack.length ≤ 256) :
    (∃ stack', Effect constants i stack stack') ∨
      ∃ fault stack', Faults constants i stack fault stack' := by
  cases i with
  | constant index =>
    by_cases hindex : index.toNat < constants.size
    · by_cases hroom : stack.length < 256
      · exact .inl ⟨_, .constant (Array.getElem?_eq_getElem hindex) hroom⟩
      · exact .inr ⟨_, _, .overflow hindex (by omega)⟩
    · exact .inr ⟨_, _, .badConstant (Nat.not_lt.1 hindex)⟩
  | operator op =>
    match stack with
    | right :: left :: stack => exact .inl ⟨_, .operator⟩
    | [_] => exact .inr ⟨_, _, .underflow (show 1 < 2 by decide)⟩
    | [] => exact .inr ⟨_, _, .underflow (show 0 < 2 by decide)⟩
  | negate =>
    match stack with
    | v :: stack => exact .inl ⟨_, .negate⟩
    | [] => exact .inr ⟨_, _, .underflow (show 0 < 1 by decide)⟩
  | ret => exact absurd rfl hi

theorem Effect.perform_eq (h : Effect constants i stack stack') (hstack : stack.length ≤ 256) :
    i.perform constants stack = .ok () stack' := by
  cases h with
  | constant hv hroom =>
    simp only [perform, hv]
    exact Machine.push_eq_ok hroom _
  | operator =>
    -- Two values come off before the result goes on, so there is room for it.
    simp only [List.length_cons] at hstack
    exact Machine.push_eq_ok (show _ < 256 by omega) _
  | negate =>
    simp only [List.length_cons] at hstack
    exact Machine.push_eq_ok (show _ < 256 by omega) _

theorem Faults.perform_eq (h : Faults constants i stack fault stack') :
    i.perform constants stack = .error fault stack' := by
  cases h with
  | underflow hneeds =>
    cases i with
    | constant => exact absurd hneeds (Nat.not_lt_zero _)
    | operator op =>
      -- A value that is there is taken off before the second one is missed.
      match stack, hneeds with
      | [], _ => rfl
      | [_], _ => rfl
      | _ :: _ :: _, hneeds => simp only [List.length_cons, arity] at hneeds; omega
    | negate =>
      match stack, hneeds with
      | [], _ => rfl
      | _ :: _, hneeds => simp only [List.length_cons, arity] at hneeds; omega
    | ret => exact absurd hneeds (Nat.not_lt_zero _)
  | badConstant hindex =>
    have hv : constants.get? _ = none := Array.getElem?_eq_none hindex
    simp only [perform, hv]
    rfl
  | overflow hindex hfull =>
    have hv : constants.get? _ = some _ := Array.getElem?_eq_getElem hindex
    simp only [perform, hv]
    rw [Stack.push, if_neg (by rw [hfull]; decide)]

end Instruction

namespace Machine

/-! ## Walks -/

/-- What a run comes to, and the stack and the offset that it leaves. -/
structure Ending where
  result : Except RuntimeError (Option Value)
  stack : Stack
  ip : Nat

/-- The entries of a chunk, taken in order with this stack before the first of them, come to this
    ending. -/
inductive Walks (c : Chunk) :
    List (Nat × Except DecodeError Instruction) → Stack → Ending → Prop where
  | ret {offset : Nat} {stack : Stack} {entries : List (Nat × Except DecodeError Instruction)} :
    Walks c ((offset, .ok .ret) :: entries) stack ⟨.ok stack.head?, stack, offset + 1⟩
  | effect {offset : Nat} {i : Instruction} {stack stack' : Stack} {ending : Ending}
    {entries : List (Nat × Except DecodeError Instruction)}
    (hi : i.Effect c.constants stack stack') (hrest : Walks c entries stack' ending) :
    Walks c ((offset, .ok i) :: entries) stack ending
  | faults {offset : Nat} {i : Instruction} {stack stack' : Stack} {fault : Fault}
    {entries : List (Nat × Except DecodeError Instruction)}
    (hi : i.Faults c.constants stack fault stack') :
    Walks c ((offset, .ok i) :: entries) stack
      ⟨.error ⟨fault, offset, (c.lines[offset]?).getD 0⟩, stack', offset + i.size⟩
  | unknownOpcode {offset place : Nat} {byte : UInt8} {stack : Stack}
    {entries : List (Nat × Except DecodeError Instruction)} :
    Walks c ((offset, .error (.unknownOpcode byte place)) :: entries) stack
      ⟨.error ⟨.unknownOpcode byte, offset, (c.lines[offset]?).getD 0⟩, stack, offset⟩
  | missingOperand {offset place : Nat} {op : Opcode} {stack : Stack}
    {entries : List (Nat × Except DecodeError Instruction)} :
    Walks c ((offset, .error (.missingOperand op place)) :: entries) stack
      ⟨.error ⟨.missingOperand op.mnemonic, offset, (c.lines[offset]?).getD 0⟩, stack, offset⟩
  | missingReturn {stack : Stack} :
    Walks c [] stack ⟨.error ⟨.missingReturn, c.size, (c.lines[c.size]?).getD 0⟩, stack, c.size⟩

theorem Walks.unique {c : Chunk} {entries : List (Nat × Except DecodeError Instruction)}
    {stack : Stack} {ending other : Ending} (h : Walks c entries stack ending)
    (h' : Walks c entries stack other) : other = ending := by
  -- An entry leaves one rule to apply: a return neither faults nor has an effect, and no
  -- instruction does both.
  induction h with
  | ret =>
    cases h' with
    | ret => rfl
    | effect hi => exact absurd rfl hi.ne_ret
    | faults hi => exact absurd rfl hi.ne_ret
  | effect hi _ ih =>
    cases h' with
    | ret => exact absurd rfl hi.ne_ret
    | effect hi' hrest =>
      rw [hi.unique hi'] at hrest
      exact ih hrest
    | faults hi' => exact absurd hi' hi.not_faults
  | faults hi =>
    cases h' with
    | ret => exact absurd rfl hi.ne_ret
    | effect hi' => exact absurd hi hi'.not_faults
    | faults hi' =>
      obtain ⟨rfl, rfl⟩ := hi.unique hi'
      rfl
  | unknownOpcode => cases h'; rfl
  | missingOperand => cases h'; rfl
  | missingReturn => cases h'; rfl

/-! ## Runs -/

/-- What the entry at `ip` does to a machine. -/
theorem step_cases {m : Machine} (hstack : m.stack.length ≤ 256) (c : Chunk) :
    (∃ i stack, c.decode m.ip = .ok i ∧ i.Effect c.constants m.stack stack ∧
      m.step c = .next { m with stack, ip := m.ip + i.size }) ∨
    (c.decode m.ip = .ok .ret ∧
      m.step c = .stop (.ok m.peek?) { m with ip := m.ip + 1 }) ∨
    (∃ i fault stack, c.decode m.ip = .ok i ∧ i.Faults c.constants m.stack fault stack ∧
      m.step c = .stop (.error (fault.locate c m.ip)) { m with stack, ip := m.ip + i.size }) ∨
    (∃ e, c.decode m.ip = .error e ∧ m.step c = .stop (.error (e.fault.locate c m.ip)) m) := by
  cases hdecode : c.decode m.ip with
  | error e => exact .inr (.inr (.inr ⟨e, rfl, by simp only [step, hdecode]⟩))
  | ok i =>
    by_cases hret : i = .ret
    · subst hret
      exact .inr (.inl ⟨rfl, step_of_ret hdecode⟩)
    · obtain ⟨stack, hi⟩ | ⟨fault, stack, hi⟩ :=
        Instruction.effect_or_faults c.constants hret hstack
      · exact .inl ⟨i, stack, rfl, hi, step_of_perform hdecode hret (hi.perform_eq hstack)⟩
      · refine .inr (.inr (.inl ⟨i, fault, stack, rfl, hi, ?_⟩))
        simp only [step, hdecode, if_neg hret, hi.perform_eq]

/-- A step goes on if the entry is an instruction that is carried out. -/
theorem effect_of_step_eq_next {c : Chunk} {m next : Machine} (hstack : m.stack.length ≤ 256)
    (h : m.step c = .next next) :
    ∃ i stack, c.decode m.ip = .ok i ∧ i.Effect c.constants m.stack stack ∧
      next = { m with stack, ip := m.ip + i.size } := by
  obtain ⟨i, stack, hdecode, hi, hstep⟩ | ⟨-, hstep⟩ | ⟨_, _, _, -, -, hstep⟩ | ⟨_, -, hstep⟩ :=
    step_cases hstack c
  · rw [hstep] at h
    cases h
    exact ⟨i, stack, hdecode, hi, rfl⟩
  all_goals
    rw [hstep] at h
    contradiction

/-- A run stops at a return, at a fault, and where there is no instruction. -/
inductive Stops (c : Chunk) (m : Machine) :
    Except RuntimeError (Option Value) → Machine → Prop where
  | ret (hdecode : c.decode m.ip = .ok .ret) : Stops c m (.ok m.peek?) { m with ip := m.ip + 1 }
  | faults {i : Instruction} {fault : Fault} {stack : Stack} (hdecode : c.decode m.ip = .ok i)
    (hi : i.Faults c.constants m.stack fault stack) :
    Stops c m (.error (fault.locate c m.ip)) { m with stack, ip := m.ip + i.size }
  | undecodable {e : DecodeError} (hdecode : c.decode m.ip = .error e) :
    Stops c m (.error (e.fault.locate c m.ip)) m

theorem stops_of_step_eq_stop {c : Chunk} {m last : Machine}
    {result : Except RuntimeError (Option Value)} (hstack : m.stack.length ≤ 256)
    (h : m.step c = .stop result last) : Stops c m result last := by
  obtain ⟨i, stack, -, -, hstep⟩ | ⟨hdecode, hstep⟩ | ⟨i, fault, stack, hdecode, hi, hstep⟩ |
    ⟨e, hdecode, hstep⟩ := step_cases hstack c
  · rw [hstep] at h
    contradiction
  all_goals
    rw [hstep] at h
    cases h
  · exact .ret hdecode
  · exact .faults hdecode hi
  · exact .undecodable hdecode

theorem Stops.step_eq {c : Chunk} {m last : Machine}
    {result : Except RuntimeError (Option Value)} (h : Stops c m result last) :
    m.step c = .stop result last := by
  cases h with
  | ret hdecode => exact step_of_ret hdecode
  | faults hdecode hi => simp only [step, hdecode, if_neg hi.ne_ret, hi.perform_eq]
  | undecodable hdecode => simp only [step, hdecode]

theorem walks_of_step_eq_stop {c : Chunk} {m last : Machine}
    {result : Except RuntimeError (Option Value)} (hip : m.ip ≤ c.size)
    (hstack : m.stack.length ≤ 256) (h : m.step c = .stop result last) :
    Walks c (c.walkFrom m.ip) m.stack ⟨result, last.stack, last.ip⟩ ∧
      last.tracing = m.tracing := by
  cases stops_of_step_eq_stop hstack h with
  | ret hdecode =>
    rw [Chunk.walkFrom, dif_pos (Chunk.lt_size_of_decode_eq_ok hdecode), hdecode]
    exact ⟨.ret, rfl⟩
  | faults hdecode hi =>
    rw [Chunk.walkFrom, dif_pos (Chunk.lt_size_of_decode_eq_ok hdecode), hdecode]
    exact ⟨.faults hi, rfl⟩
  | @undecodable e hdecode =>
    by_cases hlt : m.ip < c.size
    · rw [Chunk.walkFrom, dif_pos hlt, hdecode]
      cases e with
      | unknownOpcode byte place => exact ⟨.unknownOpcode, rfl⟩
      | missingOperand op place => exact ⟨.missingOperand, rfl⟩
      | outOfBounds place => exact absurd hdecode (Chunk.decode_ne_outOfBounds hlt place)
    · -- Behind the last entry the machine stands exactly at the end of the code.
      have hend : m.ip = c.size := by omega
      rw [Chunk.decode_of_le (Nat.not_lt.1 hlt)] at hdecode
      cases hdecode
      rw [Chunk.walkFrom, dif_neg hlt, hend]
      exact ⟨.missingReturn, rfl⟩

/-- A step that goes on leaves one entry of the walk behind. -/
theorem walkFrom_of_step_eq_next {c : Chunk} {m next : Machine} (hstack : m.stack.length ≤ 256)
    (h : m.step c = .next next) :
    c.walkFrom m.ip = (m.ip, c.decode m.ip) :: c.walkFrom next.ip := by
  obtain ⟨i, stack, hdecode, -, rfl⟩ := effect_of_step_eq_next hstack h
  have hnext : c.next m.ip = m.ip + i.size := by simp only [Chunk.next, hdecode]
  rw [Chunk.walkFrom, dif_pos (Chunk.lt_size_of_decode_eq_ok hdecode), hnext]

theorem walks_of_step_eq_next {c : Chunk} {m next : Machine} (hstack : m.stack.length ≤ 256)
    (h : m.step c = .next next) :
    next.ip ≤ c.size ∧ next.stack.length ≤ 256 ∧ next.tracing = m.tracing ∧
      ∀ ending, Walks c (c.walkFrom next.ip) next.stack ending →
        Walks c (c.walkFrom m.ip) m.stack ending := by
  have hwalk := walkFrom_of_step_eq_next hstack h
  obtain ⟨i, stack, hdecode, hi, rfl⟩ := effect_of_step_eq_next hstack h
  refine ⟨Chunk.add_size_le_of_decode_eq_ok hdecode, hi.length_le hstack, rfl, ?_⟩
  intro ending hwalks
  rw [hwalk, hdecode]
  exact .effect hi hwalks

theorem walks_runFrom {c : Chunk} {m : Machine} (hip : m.ip ≤ c.size)
    (hstack : m.stack.length ≤ 256) :
    Walks c (c.walkFrom m.ip) m.stack
        ⟨(runFrom c m).result, (runFrom c m).machine.stack, (runFrom c m).machine.ip⟩ ∧
      (runFrom c m).machine.tracing = m.tracing := by
  -- A step keeps both hypotheses, so they hold wherever the run stands.
  fun_induction runFrom c m with
  | case1 m next hstep later ih =>
    obtain ⟨hip', hstack', htracing, hwalks⟩ := walks_of_step_eq_next hstack hstep
    obtain ⟨hlater, htracing'⟩ := ih hip' hstack'
    exact ⟨hwalks _ hlater, htracing'.trans htracing⟩
  | case2 m result last hstep => exact walks_of_step_eq_stop hip hstack hstep

/-- **Runs follow the code.**  Of any chunk and from any machine a run ends, and it ends as the
    entries of the chunk do, taken in order from an empty stack. -/
theorem exists_walks_of_execute (m : Machine) (c : Chunk) :
    ∃ ending, Walks c c.walk [] ending ∧ (∀ other, Walks c c.walk [] other → other = ending) ∧
      (m.execute c).result = ending.result ∧
      (m.execute c).machine = { m with stack := ending.stack, ip := ending.ip } := by
  obtain ⟨hwalks, htracing⟩ := walks_runFrom (c := c) (m := { m with stack := [], ip := 0 })
    (Nat.zero_le _) (Nat.zero_le _)
  -- Stack and offset are set before the run and tracing is never touched by it.
  change (m.execute c).machine.tracing = m.tracing at htracing
  refine ⟨_, hwalks, fun other hother => hwalks.unique hother, rfl, ?_⟩
  show (m.execute c).machine = ⟨(m.execute c).machine.stack, (m.execute c).machine.ip, m.tracing⟩
  rw [← htracing]

end Machine

end ArithVM
