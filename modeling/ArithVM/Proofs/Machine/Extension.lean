import ArithVM.Proofs.Machine.Walk

/-!
# Extension — what stays when a chunk grows

Bytes, lines and constants that come behind those of a chunk do not change how its code is read,
except where an operand was missing at the end.  A run that has ended for another reason than that
the code or the constants were at their end therefore comes to the same in every longer chunk.
-/

namespace ArithVM

namespace Chunk

/-- The chunk with more bytes, lines and constants behind its own, any number of each. -/
def extend (c : Chunk) (bytes : Array UInt8) (lines : Array Nat) (values : Array Value) : Chunk :=
  ⟨c.code ++ bytes, c.lines ++ lines, ⟨c.constants.values ++ values⟩⟩

variable {c : Chunk} {bytes : Array UInt8} {lines : Array Nat} {values : Array Value} {offset : Nat}

/-! ## Parts of a chunk -/

theorem getElem?_code_extend (h : offset < c.size) :
    (c.extend bytes lines values).code[offset]? = c.code[offset]? :=
  Array.getElem?_append_left h

theorem line?_extend (h : offset < c.lines.size) :
    (c.extend bytes lines values).line? offset = c.line? offset :=
  Array.getElem?_append_left h

theorem get?_constants_extend {index : Nat} (h : index < c.constants.size) :
    (c.extend bytes lines values).constants.get? index = c.constants.get? index :=
  Array.getElem?_append_left h

theorem size_le_size_extend : c.size ≤ (c.extend bytes lines values).size := by
  show c.code.size ≤ (c.code ++ bytes).size
  rw [Array.size_append]
  omega

theorem size_constants_le_extend :
    c.constants.size ≤ (c.extend bytes lines values).constants.size := by
  show c.constants.values.size ≤ (c.constants.values ++ values).size
  rw [Array.size_append]
  omega

/-! ## Entries -/

/-- What is read does not run into the end of the code. -/
def Whole : Except DecodeError Instruction → Prop
  | .ok _ => True
  | .error (.unknownOpcode ..) => True
  | .error (.missingOperand ..) => False
  | .error (.outOfBounds _) => False

theorem lt_size_of_whole (h : Whole (c.decode offset)) : offset < c.size := by
  by_contra hge
  rw [decode_of_le (Nat.not_lt.1 hge)] at h
  exact h

theorem whole_or_missingOperand (h : offset < c.size) :
    Whole (c.decode offset) ∨ ∃ op place, c.decode offset = .error (.missingOperand op place) := by
  cases hdecode : c.decode offset with
  | ok i => exact .inl trivial
  | error e =>
    cases e with
    | unknownOpcode byte place => exact .inl trivial
    | missingOperand op place => exact .inr ⟨op, place, rfl⟩
    | outOfBounds place => exact absurd hdecode (decode_ne_outOfBounds h place)

theorem decode_extend (h : Whole (c.decode offset)) :
    (c.extend bytes lines values).decode offset = c.decode offset := by
  have hlt := lt_size_of_whole h
  have hbyte : c.code[offset]? = some c.code[offset] := Array.getElem?_eq_getElem hlt
  simp only [decode, hbyte] at h
  simp only [decode, getElem?_code_extend hlt, hbyte]
  cases hop : Opcode.ofByte? c.code[offset] with
  | none => rfl
  | some op =>
    cases op with
    | constant =>
      -- The operand is read, so it is one of the chunk's own bytes.
      have hoperand : offset + 1 < c.size := by
        by_contra hge
        simp only [hop, Array.getElem?_eq_none (Nat.not_lt.1 hge)] at h
        exact h
      simp only [getElem?_code_extend hoperand]
    | operator op => rfl
    | negate => rfl
    | ret => rfl

theorem decode_extend_of_eq_ok {i : Instruction} (h : c.decode offset = .ok i) :
    (c.extend bytes lines values).decode offset = .ok i := by
  rw [decode_extend (by rw [h]; trivial), h]

theorem next_extend (h : Whole (c.decode offset)) :
    (c.extend bytes lines values).next offset = c.next offset := by
  unfold next
  rw [decode_extend h]
  generalize c.decode offset = entry at h
  cases entry with
  | ok i => rfl
  | error e =>
    cases e with
    | unknownOpcode byte place => rfl
    | missingOperand op place => exact h.elim
    | outOfBounds place => exact h.elim

/-- The entries of a walk stay the first ones; only one without its operand may become another. -/
theorem walkFrom_extend (bytes : Array UInt8) (lines : Array Nat) (values : Array Value)
    (c : Chunk) (start : Nat) :
    c.walkFrom start <+: (c.extend bytes lines values).walkFrom start ∨
      ∃ entries offset op place,
        c.walkFrom start = entries ++ [(offset, .error (.missingOperand op place))] ∧
        entries ++ [(offset, (c.extend bytes lines values).decode offset)] <+:
          (c.extend bytes lines values).walkFrom start := by
  fun_induction walkFrom c start with
  | case1 start hlt ih =>
    have hwalk := walkFrom.eq_def (c.extend bytes lines values) start
    rw [dif_pos (Nat.lt_of_lt_of_le hlt size_le_size_extend)] at hwalk
    rw [hwalk]
    obtain hwhole | ⟨op, place, hdecode⟩ := whole_or_missingOperand hlt
    · rw [decode_extend hwhole, next_extend hwhole]
      obtain hstays | ⟨entries, offset, op, place, hentries, hstays⟩ := ih
      · exact .inl ((List.prefix_cons_inj _).2 hstays)
      · refine .inr ⟨(start, c.decode start) :: entries, offset, op, place, ?_, ?_⟩
        · rw [hentries, List.cons_append]
        · exact (List.prefix_cons_inj _).2 hstays
    · -- Behind a missing operand the walk is at its end.
      have hnext : c.next start = c.size := by simp only [next, hdecode]
      refine .inr ⟨[], start, op, place, ?_, List.prefix_append [_] _⟩
      rw [hnext, walkFrom, dif_neg (Nat.lt_irrefl _), hdecode, List.nil_append]
  | case2 start hge => exact .inl List.nil_prefix

end Chunk

/-! ## Instructions -/

namespace Instruction

variable {c : Chunk} {bytes : Array UInt8} {lines : Array Nat} {values : Array Value}
  {i : Instruction} {stack stack' : Stack} {fault : Fault}

theorem Effect.extend (h : i.Effect c.constants stack stack') :
    i.Effect (c.extend bytes lines values).constants stack stack' := by
  cases h with
  | constant hv hroom =>
    have hindex := (Array.getElem?_eq_some_iff.1 hv).1
    exact .constant ((Chunk.get?_constants_extend hindex).trans hv) hroom
  | operator => exact .operator
  | negate => exact .negate

/-- A fault stays, but for a missing constant, which may be among the new ones. -/
theorem Faults.extend (h : i.Faults c.constants stack fault stack')
    (hfault : ∀ index, fault ≠ .badConstant index) :
    i.Faults (c.extend bytes lines values).constants stack fault stack' := by
  cases h with
  | underflow hneeds => exact .underflow hneeds
  | badConstant => exact absurd rfl (hfault _)
  | overflow hindex hfull =>
    exact .overflow (Nat.lt_of_lt_of_le hindex Chunk.size_constants_le_extend) hfull

end Instruction

namespace Machine

open Chunk

variable {c : Chunk} {bytes : Array UInt8} {lines : Array Nat} {values : Array Value}
  {m next last : Machine} {result : Except RuntimeError (Option Value)}

/-! ## Steps -/

/-- A return, or a fault for another reason than that the code or the constants are at their
    end. -/
inductive Settled : Except RuntimeError (Option Value) → Prop where
  | returned {v? : Option Value} : Settled (.ok v?)
  | stackUnderflow {offset line : Nat} : Settled (.error ⟨.stackUnderflow, offset, line⟩)
  | stackOverflow {offset line : Nat} : Settled (.error ⟨.stackOverflow, offset, line⟩)
  | unknownOpcode {byte : UInt8} {offset line : Nat} :
    Settled (.error ⟨.unknownOpcode byte, offset, line⟩)

theorem locate_extend {offset : Nat} (hlines : c.lines.size = c.size) (h : offset < c.size)
    (fault : Fault) :
    fault.locate (c.extend bytes lines values) offset = fault.locate c offset := by
  rw [Fault.locate, line?_extend (by rw [hlines]; exact h), Fault.locate]

theorem step_extend_of_next (hstack : m.stack.length ≤ 256) (h : m.step c = .next next) :
    m.step (c.extend bytes lines values) = .next next := by
  obtain ⟨i, stack, hdecode, hi, rfl⟩ := effect_of_step_eq_next hstack h
  exact step_of_perform (decode_extend_of_eq_ok hdecode) hi.ne_ret (hi.extend.perform_eq hstack)

theorem step_extend_of_stop (hlines : c.lines.size = c.size) (hstack : m.stack.length ≤ 256)
    (hsettled : Settled result) (h : m.step c = .stop result last) :
    m.step (c.extend bytes lines values) = .stop result last := by
  cases stops_of_step_eq_stop hstack h with
  | ret hdecode => exact step_of_ret (decode_extend_of_eq_ok hdecode)
  | @faults i fault stack hdecode hi =>
    have hfault : ∀ index, fault ≠ .badConstant index := by
      rintro index rfl
      cases hsettled
    have hstops : Stops (c.extend bytes lines values) m
        (.error (fault.locate (c.extend bytes lines values) m.ip))
        { m with stack, ip := m.ip + i.size } :=
      .faults (decode_extend_of_eq_ok hdecode) (hi.extend hfault)
    rw [hstops.step_eq, locate_extend hlines (lt_size_of_decode_eq_ok hdecode)]
  | @undecodable e hdecode =>
    cases e with
    | unknownOpcode byte place =>
      have hwhole : Whole (c.decode m.ip) := by
        rw [hdecode]
        trivial
      rw [(Stops.undecodable ((decode_extend hwhole).trans hdecode)).step_eq,
        locate_extend hlines (lt_size_of_whole hwhole)]
    | missingOperand => cases hsettled
    | outOfBounds => cases hsettled

/-! ## Runs -/

theorem runFrom_extend (hlines : c.lines.size = c.size) (bytes : Array UInt8) (lines : Array Nat)
    (values : Array Value) (m : Machine) : m.stack.length ≤ 256 → Settled (runFrom c m).result →
      (runFrom (c.extend bytes lines values) m).result = (runFrom c m).result ∧
        (runFrom (c.extend bytes lines values) m).machine = (runFrom c m).machine := by
  fun_induction runFrom c m with
  | case1 m next hstep later ih =>
    intro hstack hsettled
    have hstep' : m.step (c.extend bytes lines values) = .next next :=
      step_extend_of_next hstack hstep
    rw [(result_runFrom_of_next hstep').1, (result_runFrom_of_next hstep').2]
    exact ih (walks_of_step_eq_next hstack hstep).2.1 hsettled
  | case2 m result last hstep =>
    intro hstack hsettled
    exact result_runFrom_of_stop (step_extend_of_stop hlines hstack hsettled hstep)

/-- **Longer chunks.**  A run of a chunk with a line for every byte that returns, or stops at the
    height of its stack or at an unknown byte, comes to the same result, stack and offset however
    the chunk is extended.  Of a walk every entry stays, but for one that had no operand. -/
theorem execute_extend (c : Chunk) (bytes : Array UInt8) (lines : Array Nat)
    (values : Array Value) :
    (c.lines.size = c.size → ∀ m : Machine, Settled (m.execute c).result →
      (m.execute (c.extend bytes lines values)).result = (m.execute c).result ∧
        (m.execute (c.extend bytes lines values)).machine = (m.execute c).machine) ∧
    (c.walk <+: (c.extend bytes lines values).walk ∨
      ∃ entries offset op place,
        c.walk = entries ++ [(offset, .error (.missingOperand op place))] ∧
        entries ++ [(offset, (c.extend bytes lines values).decode offset)] <+:
          (c.extend bytes lines values).walk) := by
  refine ⟨?_, walkFrom_extend bytes lines values c 0⟩
  intro hlines m hsettled
  exact runFrom_extend hlines bytes lines values _ (Nat.zero_le _) hsettled

/-- An underflow in front of an opcode without its operand, which the extension brings together
    with the constant. -/
theorem execute_extend_cut_off :
    ∃ c : Chunk, c = ⟨#[5, 0], #[3, 4], ⟨#[]⟩⟩ ∧ c.lines.size = c.size ∧
      Settled (execute {} c).result ∧
      (execute {} (c.extend #[0, 6] #[4, 4] #[1])).result = .error ⟨.stackUnderflow, 0, 3⟩ ∧
      c.walk = [(0, .ok .negate), (1, .error (.missingOperand .constant 1))] ∧
      ¬ c.walk <+: (c.extend #[0, 6] #[4, 4] #[1]).walk ∧
      [(0, .ok .negate), (1, .ok (.constant 0))] <+: (c.extend #[0, 6] #[4, 4] #[1]).walk := by
  have hresult : (execute {} ⟨#[5, 0], #[3, 4], ⟨#[]⟩⟩).result =
      .error ⟨.stackUnderflow, 0, 3⟩ := by
    decide +kernel
  have hsettled : Settled (execute {} ⟨#[5, 0], #[3, 4], ⟨#[]⟩⟩).result := by
    rw [hresult]
    exact .stackUnderflow
  have hwalk : walk ⟨#[5, 0], #[3, 4], ⟨#[]⟩⟩ =
      [(0, .ok .negate), (1, .error (.missingOperand .constant 1))] := by
    decide +kernel
  have hchanged : ¬ walk ⟨#[5, 0], #[3, 4], ⟨#[]⟩⟩ <+:
      (extend ⟨#[5, 0], #[3, 4], ⟨#[]⟩⟩ #[0, 6] #[4, 4] #[1]).walk := by
    decide +kernel
  obtain ⟨hrun, hstays⟩ := execute_extend ⟨#[5, 0], #[3, 4], ⟨#[]⟩⟩ #[0, 6] #[4, 4] #[1]
  refine ⟨_, rfl, rfl, hsettled, (hrun rfl {} hsettled).1.trans hresult, hwalk, hchanged, ?_⟩
  obtain hstays | ⟨entries, offset, op, place, hentries, hstays⟩ := hstays
  · exact absurd hstays hchanged
  · rw [hwalk] at hentries
    have happend : [(0, .ok .negate)] ++ [(1, .error (.missingOperand .constant 1))] =
        entries ++ [(offset, .error (.missingOperand op place))] := hentries
    obtain ⟨rfl, hlast⟩ := List.append_inj' happend rfl
    cases hlast
    exact hstays

end Machine

end ArithVM
