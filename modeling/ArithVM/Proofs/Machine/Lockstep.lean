import ArithVM.Proofs.Machine.Safety
import ArithVM.Proofs.Machine.Walk

/-!
# Lockstep — runs that differ in values only

No branch of a run is taken because of a value.  Two chunks that differ in the values of their
constants go through the same offsets with stacks of the same heights, and they end alike: with
some value both, with none both, or with the same error both.
-/

namespace ArithVM

/-! ## Chunks -/

/-- Two chunks that differ in the values of their constants at most. -/
structure Chunk.Alike (c c' : Chunk) : Prop where
  code : c.code = c'.code
  lines : c.lines = c'.lines
  size_constants : c.constants.size = c'.constants.size

theorem Chunk.Alike.decode_eq {c c' : Chunk} (h : c.Alike c') (offset : Nat) :
    c.decode offset = c'.decode offset := by
  simp only [decode, h.code]

theorem Chunk.Alike.locate_eq {c c' : Chunk} (h : c.Alike c') (fault : Fault) (offset : Nat) :
    fault.locate c offset = fault.locate c' offset := by
  simp only [Fault.locate, line?, h.lines]

/-! ## Changes of a stack -/

namespace Stack

variable {α β : Type}

/-- Both changes go through or both meet the same fault, and the stacks are of one height then. -/
inductive SameCourse : EStateM.Result Fault Stack α → EStateM.Result Fault Stack α → Prop where
  | ok {a a' : α} {stack stack' : Stack} (h : stack.length = stack'.length) :
    SameCourse (.ok a stack) (.ok a' stack')
  | error {fault : Fault} {stack stack' : Stack} (h : stack.length = stack'.length) :
    SameCourse (.error fault stack) (.error fault stack')

/-- Two changes that take the same course on any two stacks of one height. -/
def Change.Alike (action action' : Change α) : Prop :=
  ∀ stack stack' : Stack, stack.length = stack'.length →
    SameCourse (action stack) (action' stack')

theorem Change.Alike.bind {action action' : Change α} {next next' : α → Change β}
    (h : action.Alike action') (hnext : ∀ a a', (next a).Alike (next' a')) :
    Change.Alike (action >>= next) (action' >>= next') := by
  intro stack stack' hheight
  have hcourse := h stack stack' hheight
  show SameCourse (EStateM.bind action next stack) (EStateM.bind action' next' stack')
  unfold EStateM.bind
  generalize action stack = result at hcourse
  generalize action' stack' = result' at hcourse
  cases hcourse with
  | ok hheight' => exact hnext _ _ _ _ hheight'
  | error hheight' => exact .error hheight'

theorem alike_push (v v' : Value) : (push v).Alike (push v') := by
  intro stack stack' hheight
  unfold push
  rw [hheight]
  split
  · apply SameCourse.ok
    rw [List.length_cons, List.length_cons, hheight]
  · exact .error hheight

theorem alike_pop : pop.Alike pop := by
  intro stack stack' hheight
  cases stack with
  | nil =>
    rw [List.eq_nil_of_length_eq_zero hheight.symm]
    exact .error rfl
  | cons v stack =>
    obtain ⟨v', rest, rfl⟩ := List.exists_cons_of_length_eq_add_one hheight.symm
    exact .ok (Nat.succ.inj hheight)

end Stack

open Stack

/-- What an instruction does is decided by the height of the stack and the size of the pool. -/
theorem Instruction.alike_perform {constants constants' : Pool}
    (h : constants.size = constants'.size) (i : Instruction) :
    (i.perform constants).Alike (i.perform constants') := by
  cases i with
  | constant index =>
    -- The pools are of one size, so the index is in both of them or in neither.
    by_cases hindex : index.toNat < constants.size
    · have hindex' : index.toNat < constants'.size := h ▸ hindex
      have hv : constants.get? index.toNat = some _ := Array.getElem?_eq_getElem hindex
      have hv' : constants'.get? index.toNat = some _ := Array.getElem?_eq_getElem hindex'
      simp only [perform, hv, hv']
      exact alike_push _ _
    · have hindex' : ¬ index.toNat < constants'.size := h ▸ hindex
      have hv : constants.get? index.toNat = none :=
        Array.getElem?_eq_none (Nat.not_lt.1 hindex)
      have hv' : constants'.get? index.toNat = none :=
        Array.getElem?_eq_none (Nat.not_lt.1 hindex')
      simp only [perform, hv, hv']
      intro stack stack' hheight
      exact .error hheight
  | operator op =>
    exact alike_pop.bind fun _ _ => alike_pop.bind fun _ _ => alike_push _ _
  | negate => exact alike_pop.bind fun _ _ => alike_push _ _
  | ret =>
    intro stack stack' hheight
    exact .ok hheight

namespace Machine

/-! ## Steps -/

/-- Two machines at one offset with stacks of one height. -/
structure Alike (m m' : Machine) : Prop where
  ip : m.ip = m'.ip
  height : m.stack.length = m'.stack.length

/-- A value both, no value both, or the same error both. -/
inductive SameOutcome :
    Except RuntimeError (Option Value) → Except RuntimeError (Option Value) → Prop where
  | value {v v' : Value} : SameOutcome (.ok (some v)) (.ok (some v'))
  | none : SameOutcome (.ok none) (.ok none)
  | error {e : RuntimeError} : SameOutcome (.error e) (.error e)

/-- Two steps after which both machines go on or both have stopped, alike again. -/
inductive SameStep : Step → Step → Prop where
  | next {m m' : Machine} (h : m.Alike m') : SameStep (.next m) (.next m')
  | stop {result result' : Except RuntimeError (Option Value)} {m m' : Machine}
    (hresult : SameOutcome result result') (h : m.Alike m') :
    SameStep (.stop result m) (.stop result' m')

theorem Alike.peek? {m m' : Machine} (h : m.Alike m') :
    SameOutcome (.ok m.peek?) (.ok m'.peek?) := by
  obtain ⟨stack, ip, tracing⟩ := m
  obtain ⟨stack', ip', tracing'⟩ := m'
  have hheight : stack.length = stack'.length := h.height
  cases stack with
  | nil =>
    rw [List.eq_nil_of_length_eq_zero hheight.symm]
    exact .none
  | cons v stack =>
    obtain ⟨v', rest, rfl⟩ := List.exists_cons_of_length_eq_add_one hheight.symm
    exact .value

variable {c c' : Chunk}

theorem sameStep_step (hc : c.Alike c') {m m' : Machine} (h : m.Alike m') :
    SameStep (m.step c) (m'.step c') := by
  -- Both machines read the same entry, so only the stacks can make a difference.
  unfold step
  rw [← hc.decode_eq, ← h.ip]
  cases c.decode m.ip with
  | error e =>
    simp only [hc.locate_eq]
    exact .stop .error h
  | ok i =>
    simp only
    split
    next => exact .stop h.peek? ⟨rfl, h.height⟩
    next =>
      have hcourse := i.alike_perform hc.size_constants m.stack m'.stack h.height
      generalize i.perform c.constants m.stack = result at hcourse
      generalize i.perform c'.constants m'.stack = result' at hcourse
      cases hcourse with
      | ok hheight => exact .next ⟨rfl, hheight⟩
      | error hheight =>
        simp only [hc.locate_eq]
        exact .stop .error ⟨rfl, hheight⟩

/-! ## Runs -/

theorem sameOutcome_runFrom (hc : c.Alike c') (m : Machine) : ∀ m' : Machine, m.Alike m' →
    SameOutcome (runFrom c m).result (runFrom c' m').result ∧
      (runFrom c m).machine.Alike (runFrom c' m').machine := by
  -- The second run is taken along with the recursion of the first.
  fun_induction runFrom c m with
  | case1 m next hstep later ih =>
    intro m' h
    have hsame := sameStep_step hc h
    rw [hstep] at hsame
    generalize hstep' : m'.step c' = step' at hsame
    cases hsame with
    | next h' =>
      rw [(result_runFrom_of_next hstep').1, (result_runFrom_of_next hstep').2]
      exact ih _ h'
  | case2 m result last hstep =>
    intro m' h
    have hsame := sameStep_step hc h
    rw [hstep] at hsame
    generalize hstep' : m'.step c' = step' at hsame
    cases hsame with
    | stop hresult h' =>
      rw [(result_runFrom_of_stop hstep').1, (result_runFrom_of_stop hstep').2]
      exact ⟨hresult, h'⟩

/-! ## Arithmetic -/

theorem Reaches.length_le {first m : Machine} (h : Reaches c first m)
    (hfirst : first.stack.length ≤ 256) : m.stack.length ≤ 256 := by
  induction h with
  | first => exact hfirst
  | next _ hstep ih => exact (walks_of_step_eq_next ih hstep).2.1

/-- An instruction that needs values and finds them goes through, whatever the values are. -/
theorem exists_next_of_arity_le {m : Machine} {i : Instruction} (hstack : m.stack.length ≤ 256)
    (hdecode : c.decode m.ip = .ok i) (hneeds : 0 < i.arity)
    (hfinds : i.arity ≤ m.stack.length) : ∃ next, m.step c = .next next := by
  have hret : i ≠ .ret := by
    rintro rfl
    exact absurd hneeds (Nat.lt_irrefl _)
  obtain ⟨stack, hi⟩ | ⟨fault, stack, hi⟩ :=
    Instruction.effect_or_faults c.constants hret hstack
  · exact ⟨_, step_of_perform hdecode hret (hi.perform_eq hstack)⟩
  · -- The other faults are those of a constant, which needs no values.
    cases hi with
    | underflow hlacks => exact absurd hfinds (Nat.not_le.2 hlacks)
    | badConstant => exact absurd hneeds (Nat.lt_irrefl _)
    | overflow => exact absurd hneeds (Nat.lt_irrefl _)

/-- **Runs do not depend on values.**  Chunks that differ in the values of their constants only,
    executed by any machines, end alike, at one offset and with stacks of one height.  Arithmetic
    that finds its operands never stops a run, neither a division by zero nor an infinity or a NaN
    among the operands. -/
theorem execute_alike (hc : c.Alike c') (m m' : Machine) :
    SameOutcome (m.execute c).result (m'.execute c').result ∧
      (m.execute c).machine.ip = (m'.execute c').machine.ip ∧
      (m.execute c).machine.stack.length = (m'.execute c').machine.stack.length ∧
      ∀ reached i, Reaches c { m with stack := [], ip := 0 } reached →
        c.decode reached.ip = .ok i → 0 < i.arity → i.arity ≤ reached.stack.length →
          ∃ next, reached.step c = .next next := by
  obtain ⟨hresult, halike⟩ := sameOutcome_runFrom hc { m with stack := [], ip := 0 }
    { m' with stack := [], ip := 0 } ⟨rfl, rfl⟩
  refine ⟨hresult, halike.ip, halike.height, ?_⟩
  intro reached i hreaches hdecode hneeds hfinds
  exact exists_next_of_arity_le (hreaches.length_le (Nat.zero_le _)) hdecode hneeds hfinds

/-- A division by zero, and the same code with a NaN to be divided. -/
theorem execute_alike_by_zero :
    ∃ c c' : Chunk, c = ⟨#[0, 0, 0, 1, 4, 6], #[1, 1, 1, 1, 2, 2], ⟨#[1, 0]⟩⟩ ∧
      c' = ⟨#[0, 0, 0, 1, 4, 6], #[1, 1, 1, 1, 2, 2], ⟨#[0 / 0, 2]⟩⟩ ∧ c.Alike c' ∧
      (execute {} c).result = .ok (some (1 / 0)) ∧
      (∃ v, (execute {} c').result = .ok (some v)) ∧
      (execute {} c').machine.ip = 6 ∧ (execute {} c').machine.stack.length = 1 := by
  have halike : Chunk.Alike ⟨#[0, 0, 0, 1, 4, 6], #[1, 1, 1, 1, 2, 2], ⟨#[1, 0]⟩⟩
      ⟨#[0, 0, 0, 1, 4, 6], #[1, 1, 1, 1, 2, 2], ⟨#[0 / 0, 2]⟩⟩ := ⟨rfl, rfl, rfl⟩
  obtain ⟨hresult, hip, hheight, -⟩ := execute_alike halike {} {}
  have hvalue : (execute {} ⟨#[0, 0, 0, 1, 4, 6], #[1, 1, 1, 1, 2, 2], ⟨#[1, 0]⟩⟩).result =
      .ok (some (1 / 0)) := by
    decide +kernel
  have hend : (execute {} ⟨#[0, 0, 0, 1, 4, 6], #[1, 1, 1, 1, 2, 2], ⟨#[1, 0]⟩⟩).machine.ip = 6 ∧
      (execute {} ⟨#[0, 0, 0, 1, 4, 6], #[1, 1, 1, 1, 2, 2],
        ⟨#[1, 0]⟩⟩).machine.stack.length = 1 := by
    decide +kernel
  refine ⟨_, _, rfl, rfl, halike, hvalue, ?_, hip.symm.trans hend.1, hheight.symm.trans hend.2⟩
  rw [hvalue] at hresult
  generalize (execute {} _).result = result at hresult ⊢
  cases hresult with
  | value => exact ⟨_, rfl⟩

end Machine

end ArithVM
