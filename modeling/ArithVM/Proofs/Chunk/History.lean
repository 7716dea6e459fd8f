import ArithVM.Proofs.Chunk.Assembly
import Mathlib.Data.List.Induction

/-!
# Histories of a chunk — what its additions leave behind

A chunk grows by four calls, and `Addition.Outcome` says once what each of them answers and leaves.
What holds of a whole history follows by induction, the last call taken off: every byte keeps the
line it came with and every constant the position that was answered.  Only a full pool refuses a
call, and a refused call leaves nothing behind, not even where it is made in place.
-/

namespace ArithVM

namespace Chunk

variable (c : Chunk) (byte : UInt8) (line : Nat)

@[simp]
theorem size_write : (c.write byte line).size = c.size + 1 :=
  Array.size_push byte

@[simp]
theorem size_lines_write : (c.write byte line).lines.size = c.lines.size + 1 :=
  Array.size_push line

@[simp]
theorem constants_write : (c.write byte line).constants = c.constants := rfl

theorem line?_write (i : Nat) :
    (c.write byte line).line? i = if i = c.lines.size then some line else c.line? i :=
  Array.getElem?_push

variable {c line}

theorem exists_line_of_lt (hlines : c.lines.size = c.size) {i : Nat} (hi : i < c.size) :
    ∃ line ∈ c.lines, c.line? i = some line := by
  rw [← hlines] at hi
  exact ⟨c.lines[i], Array.getElem_mem hi, Array.getElem?_eq_getElem hi⟩

theorem exists_lt_of_mem_lines (hlines : c.lines.size = c.size) (h : line ∈ c.lines) :
    ∃ i < c.size, c.line? i = some line := by
  obtain ⟨i, hi, hline⟩ := Array.mem_iff_getElem.1 h
  exact ⟨i, hlines ▸ hi, (Array.getElem?_eq_getElem hi).trans (congrArg some hline)⟩

end Chunk

/-- A call that adds to a chunk. -/
inductive Addition where
  | write (byte : UInt8) (line : Nat)
  | writeOp (op : Opcode) (line : Nat)
  | addConstant (v : Value)
  | writeConstant (v : Value) (line : Nat)

namespace Addition

/-- The constant that a call is to add. -/
def value? : Addition → Option Value
  | .write .. => none
  | .writeOp .. => none
  | .addConstant v => some v
  | .writeConstant v _ => some v

/-- The line of the bytes that a call is to append. -/
def line? : Addition → Option Nat
  | .write _ line => some line
  | .writeOp _ line => some line
  | .addConstant _ => none
  | .writeConstant _ line => some line

/-- A constant is answered with its position, bytes with nothing. -/
abbrev Answer := Except ChunkError (Option UInt8)

/-- The answer for a constant, and the chunk that there is then. -/
def answered (c : Chunk) : Except ChunkError (UInt8 × Chunk) → Answer × Chunk
  | .ok (index, grown) => (.ok (some index), grown)
  | .error e => (.error e, c)

/-- What a call answers, and the chunk after it. -/
def on (a : Addition) (c : Chunk) : Answer × Chunk :=
  match a with
  | .write byte line => (.ok none, c.write byte line)
  | .writeOp op line => (.ok none, c.writeOp op line)
  | .addConstant v => answered c (c.addConstant v)
  | .writeConstant v line => answered c (c.writeConstant v line)

/-! ## One call -/

/-- What a call may answer and leave. -/
inductive Outcome (c : Chunk) : Addition → Answer → Chunk → Prop where
  | byte {a : Addition} {byte : UInt8} {line : Nat} (hvalue : a.value? = none)
    (hline : a.line? = some line) : Outcome c a (.ok none) (c.write byte line)
  | constant {v : Value} {index : UInt8} (hroom : c.constants.size < 256)
    (hindex : index.toNat = c.constants.size) :
    Outcome c (.addConstant v) (.ok (some index)) { c with constants := c.constants.push v }
  | instruction {v : Value} {line : Nat} {index : UInt8} (hroom : c.constants.size < 256)
    (hindex : index.toNat = c.constants.size) :
    Outcome c (.writeConstant v line) (.ok (some index))
      (({ c with constants := c.constants.push v }.writeOp .constant line).write index line)
  | refused {a : Addition} {v : Value} (hvalue : a.value? = some v)
    (hfull : 256 ≤ c.constants.size) : Outcome c a (.error .tooManyConstants) c

theorem outcome_on (a : Addition) (c : Chunk) : Outcome c a (a.on c).1 (a.on c).2 := by
  by_cases hroom : c.constants.size < Chunk.maxConstants
  · have hindex := Chunk.toNat_ofNat_of_lt_maxConstants hroom
    cases a with
    | write byte line => exact .byte rfl rfl
    | writeOp op line => exact .byte rfl rfl
    | addConstant v =>
      simp only [on, Chunk.addConstant, if_pos hroom, answered]
      exact .constant hroom hindex
    | writeConstant v line =>
      simp only [on, Chunk.writeConstant, Chunk.addConstant, if_pos hroom, answered]
      exact .instruction hroom hindex
  · have hfull : 256 ≤ c.constants.size := Nat.le_of_not_lt hroom
    cases a with
    | write byte line => exact .byte rfl rfl
    | writeOp op line => exact .byte rfl rfl
    | addConstant v =>
      simp only [on, Chunk.addConstant, if_neg hroom, answered]
      exact .refused rfl hfull
    | writeConstant v line =>
      simp only [on, Chunk.writeConstant, Chunk.addConstant, if_neg hroom, answered]
      exact .refused rfl hfull

namespace Outcome

variable {c c' : Chunk} {a : Addition} {answer : Answer}

theorem size_lines (h : Outcome c a answer c') (hc : c.lines.size = c.size) :
    c'.lines.size = c'.size := by
  cases h with
  | byte => rw [Chunk.size_lines_write, Chunk.size_write, hc]
  | constant => exact hc
  | instruction =>
    rw [Chunk.writeOp, Chunk.size_lines_write, Chunk.size_lines_write, Chunk.size_write,
      Chunk.size_write]
    exact congrArg (· + 1 + 1) hc
  | refused => exact hc

theorem size_constants_le (h : Outcome c a answer c') (hc : c.constants.size ≤ 256) :
    c'.constants.size ≤ 256 := by
  cases h with
  | byte => exact hc
  | constant hroom =>
    rw [Pool.size_push]
    exact hroom
  | instruction hroom =>
    rw [Chunk.constants_write, Chunk.writeOp, Chunk.constants_write, Pool.size_push]
    exact hroom
  | refused => exact hc

/-- A byte keeps its line if it is there, and has the line of the call if it is new. -/
theorem line?_eq (h : Outcome c a answer c') (hc : c.lines.size = c.size) {i : Nat}
    (hi : i < c'.size) :
    i < c.size ∧ c'.line? i = c.line? i ∨
      c.size ≤ i ∧ ∃ line, a.line? = some line ∧ c'.line? i = some line := by
  cases h with
  | @byte _ byte line _ hline =>
    rw [Chunk.size_write] at hi
    rw [Chunk.line?_write, hc]
    split
    next hnew => exact .inr ⟨Nat.le_of_eq hnew.symm, line, hline, rfl⟩
    next hold => exact .inl ⟨by omega, rfl⟩
  | constant => exact .inl ⟨hi, rfl⟩
  | @instruction v line index =>
    have hd : ({ c with constants := c.constants.push v } : Chunk).lines.size = c.size := hc
    rw [Chunk.writeOp, Chunk.size_write, Chunk.size_write] at hi
    change i < c.size + 1 + 1 at hi
    rw [Chunk.writeOp, Chunk.line?_write, Chunk.size_lines_write, Chunk.line?_write, hd]
    split
    next hoperand => exact .inr ⟨by omega, line, rfl, rfl⟩
    next hoperand =>
      split
      next hopcode => exact .inr ⟨by omega, line, rfl, rfl⟩
      next hopcode => exact .inl ⟨by omega, rfl⟩
  | refused => exact .inl ⟨hi, rfl⟩

/-- Only a full pool refuses a call, and it refuses every constant. -/
theorem eq_error_iff (h : Outcome c a answer c') (hc : c.constants.size ≤ 256) :
    answer = .error .tooManyConstants ↔ a.value? ≠ none ∧ c.constants.size = 256 := by
  cases h with
  | byte hvalue => simp [hvalue]
  | constant hroom => simp [Nat.ne_of_lt hroom]
  | instruction hroom => simp [Nat.ne_of_lt hroom]
  | refused hvalue hfull => simp [hvalue, Nat.le_antisymm hc hfull]

theorem eq_of_error {e : ChunkError} (h : Outcome c a (.error e) c') : c' = c := by
  cases h with
  | refused => rfl

end Outcome

/-! ## In place -/

/-- A change of a chunk in place.  When it is refused, the chunk stays as it was at the refusal. -/
abbrev Change := EStateM ChunkError Chunk

namespace Change

/-- The operand byte for a position, if the position fits into a byte. -/
def operand (index : Nat) : Change UInt8 :=
  if index < UInt8.size then pure (.ofNat index) else throw .tooManyConstants

/-- Asks for room, appends the constant, and makes an operand of its position last. -/
def addConstant (v : Value) : Change UInt8 := do
  let c ← get
  if Chunk.maxConstants ≤ c.constants.size then
    throw .tooManyConstants
  set { c with constants := c.constants.push v }
  operand c.constants.size

/-- Adds the constant first, and then the opcode and the operand. -/
def writeConstant (v : Value) (line : Nat) : Change UInt8 := do
  let index ← addConstant v
  modify (·.writeOp .constant line)
  modify (·.write index line)
  return index

theorem operand_of_lt {index : Nat} (h : index < Chunk.maxConstants) :
    operand index = pure (.ofNat index) := by
  have hbyte : index < UInt8.size := h
  rw [operand, if_pos hbyte]

theorem addConstant_eq (v : Value) (c : Chunk) :
    addConstant v c =
      if Chunk.maxConstants ≤ c.constants.size then .error .tooManyConstants c
      else operand c.constants.size { c with constants := c.constants.push v } := by
  show (ite (Chunk.maxConstants ≤ c.constants.size) (_ : Change UInt8) _) c = _
  split
  · rfl
  · rfl

theorem addConstant_of_lt {c : Chunk} (h : c.constants.size < Chunk.maxConstants) (v : Value) :
    addConstant v c =
      .ok (.ofNat c.constants.size) { c with constants := c.constants.push v } := by
  rw [addConstant_eq, if_neg (Nat.not_le.2 h), operand_of_lt h]
  rfl

theorem addConstant_of_le {c : Chunk} (h : Chunk.maxConstants ≤ c.constants.size) (v : Value) :
    addConstant v c = .error .tooManyConstants c := by
  rw [addConstant_eq, if_pos h]

end Change

/-- A call made in place. -/
def inPlace : Addition → Change (Option UInt8)
  | .write byte line => do
    modify (·.write byte line)
    return none
  | .writeOp op line => do
    modify (·.writeOp op line)
    return none
  | .addConstant v => some <$> Change.addConstant v
  | .writeConstant v line => some <$> Change.writeConstant v line

/-- Made in place, a call answers the same and leaves the same chunk. -/
theorem inPlace_eq (a : Addition) (c : Chunk) :
    a.inPlace c = match a.on c with
      | (.ok index?, grown) => .ok index? grown
      | (.error e, left) => .error e left := by
  cases a with
  | write byte line => rfl
  | writeOp op line => rfl
  | addConstant v =>
    by_cases hroom : c.constants.size < Chunk.maxConstants
    · have hadd := Change.addConstant_of_lt hroom v
      simp only [inPlace, Functor.map, EStateM.map, hadd, on, Chunk.addConstant, if_pos hroom,
        answered]
    · have hadd := Change.addConstant_of_le (Nat.le_of_not_lt hroom) v
      simp only [inPlace, Functor.map, EStateM.map, hadd, on, Chunk.addConstant, if_neg hroom,
        answered]
  | writeConstant v line =>
    by_cases hroom : c.constants.size < Chunk.maxConstants
    · have hadd := Change.addConstant_of_lt hroom v
      simp only [inPlace, Functor.map, EStateM.map, Change.writeConstant, bind, EStateM.bind, hadd,
        on, Chunk.writeConstant, Chunk.addConstant, if_pos hroom, answered]
      rfl
    · have hadd := Change.addConstant_of_le (Nat.le_of_not_lt hroom) v
      simp only [inPlace, Functor.map, EStateM.map, Change.writeConstant, bind, EStateM.bind, hadd,
        on, Chunk.writeConstant, Chunk.addConstant, if_neg hroom, answered]

end Addition

/-! ## Many calls -/

namespace Chunk

/-- The chunk after some calls. -/
def after (c : Chunk) (calls : List Addition) : Chunk :=
  calls.foldl (fun c a => (a.on c).2) c

/-- The constants that calls have added, each with the position that was answered for it. -/
def added (c : Chunk) : List Addition → List (Value × UInt8)
  | [] => []
  | a :: calls =>
    match a.value?, (a.on c).1 with
    | some v, .ok (some index) => (v, index) :: added (a.on c).2 calls
    | _, _ => added (a.on c).2 calls

theorem after_concat (c : Chunk) (calls : List Addition) (a : Addition) :
    c.after (calls ++ [a]) = (a.on (c.after calls)).2 :=
  List.foldl_concat ..

theorem added_append (c : Chunk) (calls more : List Addition) :
    c.added (calls ++ more) = c.added calls ++ (c.after calls).added more := by
  induction calls generalizing c with
  | nil => rfl
  | cons a calls ih =>
    have hafter : c.after (a :: calls) = (a.on c).2.after calls := rfl
    simp only [List.cons_append, added, hafter, ih]
    split <;> rfl

theorem size_lines_after (calls : List Addition) :
    (empty.after calls).lines.size = (empty.after calls).size := by
  induction calls using List.reverseRecOn with
  | nil => rfl
  | append_singleton calls a ih =>
    rw [after_concat]
    exact (a.outcome_on _).size_lines ih

theorem size_constants_after_le (calls : List Addition) :
    (empty.after calls).constants.size ≤ 256 := by
  induction calls using List.reverseRecOn with
  | nil => exact Nat.zero_le _
  | append_singleton calls a ih =>
    rw [after_concat]
    exact (a.outcome_on _).size_constants_le ih

/-- Every byte was appended by one of the calls, and still has the line of that call. -/
theorem exists_call_of_lt {calls : List Addition} {i : Nat} (hi : i < (empty.after calls).size) :
    ∃ earlier a later line, calls = earlier ++ a :: later ∧
      (empty.after earlier).size ≤ i ∧ i < (empty.after (earlier ++ [a])).size ∧
      a.line? = some line ∧ (empty.after calls).line? i = some line := by
  induction calls using List.reverseRecOn with
  | nil => exact absurd hi (Nat.not_lt_zero i)
  | append_singleton calls a ih =>
    have hcall := hi
    rw [after_concat] at hi
    rw [after_concat]
    obtain ⟨hold, hline⟩ | ⟨hnew, line, hline, hline'⟩ :=
      (a.outcome_on _).line?_eq (size_lines_after calls) hi
    · obtain ⟨earlier, b, later, line, rfl, hle, hlt, hb, hline'⟩ := ih hold
      refine ⟨earlier, b, later ++ [a], line, ?_, hle, hlt, hb, hline.trans hline'⟩
      rw [List.append_assoc, List.cons_append]
    · exact ⟨calls, a, [], line, rfl, hnew, hcall, hline, hline'⟩

/-- The pool holds these constants in order, and their positions are the ones answered. -/
def Keeps (constants : Pool) (added : List (Value × UInt8)) : Prop :=
  added.length = constants.size ∧
    ∀ k v index, added[k]? = some (v, index) → index.toNat = k ∧ constants.get? k = some v

theorem Keeps.concat {constants : Pool} {added : List (Value × UInt8)} (h : Keeps constants added)
    (v : Value) {index : UInt8} (hindex : index.toNat = constants.size) :
    Keeps (constants.push v) (added ++ [(v, index)]) := by
  obtain ⟨hlength, hadded⟩ := h
  refine ⟨by rw [List.length_append, hlength, Pool.size_push]; rfl, ?_⟩
  intro k w index' hk
  rw [Pool.get?_push]
  obtain hlt | rfl | hgt := Nat.lt_trichotomy k added.length
  · rw [List.getElem?_append_left hlt] at hk
    rw [if_neg (by omega)]
    exact hadded k w index' hk
  · rw [List.getElem?_concat_length] at hk
    cases hk
    exact ⟨hindex.trans hlength.symm, if_pos hlength⟩
  · rw [List.getElem?_eq_none (by rw [List.length_append, List.length_singleton]; exact hgt)] at hk
    contradiction

theorem keeps_after (calls : List Addition) :
    Keeps (empty.after calls).constants (empty.added calls) := by
  induction calls using List.reverseRecOn with
  | nil => exact ⟨rfl, by simp [added]⟩
  | append_singleton calls a ih =>
    have houtcome := a.outcome_on (empty.after calls)
    rw [after_concat, added_append]
    simp only [added]
    generalize (a.on (empty.after calls)).1 = answer at houtcome
    generalize (a.on (empty.after calls)).2 = c at houtcome
    cases houtcome with
    | byte hvalue => simp only [hvalue, List.append_nil]; exact ih
    | constant hroom hindex => exact ih.concat _ hindex
    | instruction hroom hindex => exact ih.concat _ hindex
    | refused hvalue =>
      simp only [hvalue, List.append_nil]
      exact ih

/-- **What is added is kept.**  After any calls on the empty chunk there is a line for every byte,
    the one it was appended with, and at most 256 constants, each at the position that was answered
    for it.  A further call is refused exactly if it adds a constant to a full pool, and then it
    changes nothing; in place it does the same, and every position in reach fits into an operand. -/
theorem kept_after_empty (calls : List Addition) :
    (empty.after calls).size = (empty.after calls).lines.size ∧
    (∀ i < (empty.after calls).size, ∃ earlier a later line, calls = earlier ++ a :: later ∧
      (empty.after earlier).size ≤ i ∧ i < (empty.after (earlier ++ [a])).size ∧
      a.line? = some line ∧ (empty.after calls).line? i = some line) ∧
    (empty.after calls).constants.size ≤ 256 ∧
    (empty.added calls).length = (empty.after calls).constants.size ∧
    (∀ k v index, (empty.added calls)[k]? = some (v, index) →
      index.toNat = k ∧ (empty.after calls).constants.get? k = some v) ∧
    ∀ a : Addition,
      ((a.on (empty.after calls)).1 = .error .tooManyConstants ↔
        a.value? ≠ none ∧ (empty.after calls).constants.size = 256) ∧
      (∀ e, (a.on (empty.after calls)).1 = .error e →
        (a.on (empty.after calls)).2 = empty.after calls) ∧
      (a.inPlace (empty.after calls) = match a.on (empty.after calls) with
        | (.ok index?, grown) => .ok index? grown
        | (.error e, left) => .error e left) ∧
      ((empty.after calls).constants.size ≠ 256 → ∃ index,
        Addition.Change.operand (empty.after calls).constants.size = pure index ∧
          index.toNat = (empty.after calls).constants.size) := by
  have hsize := size_constants_after_le calls
  obtain ⟨hlength, hadded⟩ := keeps_after calls
  refine ⟨(size_lines_after calls).symm, fun i => exists_call_of_lt, hsize, hlength, hadded, ?_⟩
  intro a
  have houtcome := a.outcome_on (empty.after calls)
  refine ⟨houtcome.eq_error_iff hsize, ?_, a.inPlace_eq _, ?_⟩
  · intro e he
    rw [he] at houtcome
    exact houtcome.eq_of_error
  · intro hroom
    have hlt : (empty.after calls).constants.size < maxConstants := Nat.lt_of_le_of_ne hsize hroom
    exact ⟨_, Addition.Change.operand_of_lt hlt, toNat_ofNat_of_lt_maxConstants hlt⟩

/-- Behind 256 constants, the instruction for one more leaves no opcode without its operand. -/
theorem kept_with_full_pool :
    ∃ c, c = empty.after (List.replicate 256 (.addConstant 1.5)) ∧ c.constants.size = 256 ∧
      (Addition.writeConstant 2.5 7).on c = (.error .tooManyConstants, c) ∧
      (Addition.writeConstant 2.5 7).inPlace c = .error .tooManyConstants c := by
  have hfull : (empty.after (List.replicate 256 (.addConstant 1.5))).constants.size = 256 := by
    decide +kernel
  obtain ⟨-, -, -, -, -, hcalls⟩ := kept_after_empty (List.replicate 256 (.addConstant 1.5))
  generalize empty.after (List.replicate 256 (.addConstant 1.5)) = c at hfull hcalls ⊢
  obtain ⟨hrefused, hsame, hplace, -⟩ := hcalls (.writeConstant 2.5 7)
  have herror := hrefused.2 ⟨nofun, hfull⟩
  have hon : (Addition.writeConstant 2.5 7).on c = (.error .tooManyConstants, c) :=
    Prod.ext herror (hsame _ herror)
  refine ⟨c, rfl, hfull, hon, ?_⟩
  rw [hplace, hon]

end Chunk

end ArithVM
