import ArithVM.Chunk.Decode
import Mathlib.Data.List.Forall2

/-!
# Assembly — chunks made of instructions

`Chunk.assemble` lays out instructions with their lines one behind the other.  Appending to an
assembled chunk gives an assembled chunk, and decoding one gives its instructions back, each at the
offset where the ones before it end.
-/

namespace ArithVM

namespace Chunk

def extent : List (Instruction × Nat) → Nat
  | [] => 0
  | placed :: code => placed.1.size + extent code

/-- The chunk of some instructions, each with its line, and some constants. -/
def assemble (code : List (Instruction × Nat)) (constants : List Value) : Chunk where
  code := (code.flatMap fun placed => placed.1.encode).toArray
  lines := (code.flatMap fun placed => List.replicate placed.1.size placed.2).toArray
  constants := ⟨constants.toArray⟩

@[simp]
theorem extent_nil : extent [] = 0 := rfl

@[simp]
theorem extent_cons (placed : Instruction × Nat) (code : List (Instruction × Nat)) :
    extent (placed :: code) = placed.1.size + extent code := rfl

@[simp]
theorem extent_append (code more : List (Instruction × Nat)) :
    extent (code ++ more) = extent code + extent more := by
  induction code with
  | nil => rw [List.nil_append, extent_nil, Nat.zero_add]
  | cons placed code ih => rw [List.cons_append, extent_cons, ih, extent_cons, Nat.add_assoc]

theorem length_flatMap_encode (code : List (Instruction × Nat)) :
    (code.flatMap fun placed => placed.1.encode).length = extent code := by
  induction code with
  | nil => rfl
  | cons placed code ih =>
    rw [List.flatMap_cons, List.length_append, ih, Instruction.length_encode, extent_cons]

theorem length_flatMap_replicate (code : List (Instruction × Nat)) :
    (code.flatMap fun placed => List.replicate placed.1.size placed.2).length = extent code := by
  induction code with
  | nil => rfl
  | cons placed code ih =>
    rw [List.flatMap_cons, List.length_append, ih, List.length_replicate, extent_cons]

theorem size_assemble (code : List (Instruction × Nat)) (constants : List Value) :
    (assemble code constants).size = extent code :=
  length_flatMap_encode code

theorem size_lines_assemble (code : List (Instruction × Nat)) (constants : List Value) :
    (assemble code constants).lines.size = extent code :=
  length_flatMap_replicate code

/-! ## Appending -/

theorem writeOp_assemble (i : Instruction) (op : Opcode) (hop : i.opcode = op)
    (hi : i.operand? = none) (line : Nat) (code : List (Instruction × Nat))
    (constants : List Value) :
    (assemble code constants).writeOp op line = assemble (code ++ [(i, line)]) constants := by
  have hencode : i.encode = [op.byte] := by rw [Instruction.encode, hi, hop]; rfl
  have hsize : i.size = 1 := by rw [← Instruction.length_encode, hencode]; rfl
  simp only [writeOp, write, assemble, List.push_toArray, List.flatMap_append,
    List.flatMap_singleton, hencode, hsize, List.replicate_one]

/-- Appending a constant appends the instruction that pushes it, as long as there is room. -/
theorem writeConstant_assemble {constants : List Value} (hroom : constants.length < maxConstants)
    (v : Value) (line : Nat) (code : List (Instruction × Nat)) :
    (assemble code constants).writeConstant v line =
      .ok (UInt8.ofNat constants.length,
        assemble (code ++ [(.constant (UInt8.ofNat constants.length), line)])
          (constants ++ [v])) := by
  have hpool : (assemble code constants).constants.size = constants.length := rfl
  have hencode (index : UInt8) : (Instruction.constant index).encode =
      [Opcode.constant.byte] ++ [index] := rfl
  have hsize (index : UInt8) : List.replicate (Instruction.constant index).size line =
      [line] ++ [line] := rfl
  rw [writeConstant, addConstant, hpool, if_pos hroom]
  simp only [writeOp, write, assemble, Pool.push, List.push_toArray, List.flatMap_append,
    List.flatMap_singleton, hencode, hsize, List.append_assoc]

theorem writeConstant_assemble_full {constants : List Value}
    (hfull : maxConstants ≤ constants.length) (v : Value) (line : Nat)
    (code : List (Instruction × Nat)) :
    (assemble code constants).writeConstant v line = .error .tooManyConstants := by
  have hpool : (assemble code constants).constants.size = constants.length := rfl
  rw [writeConstant, addConstant, hpool, if_neg (Nat.not_lt.2 hfull)]

/-- An operand byte has room for the position of every constant. -/
theorem toNat_ofNat_of_lt_maxConstants {index : Nat} (h : index < maxConstants) :
    (UInt8.ofNat index).toNat = index := by
  apply UInt8.toNat_ofNat_of_lt'
  exact h

/-! ## Decoding -/

theorem decode_of_code_eq {c : Chunk} {before after : List UInt8} {i : Instruction}
    (h : c.code.toList = before ++ (i.encode ++ after)) : c.decode before.length = .ok i := by
  have hbyte (k : Nat) : c.code[before.length + k]? = (i.encode ++ after)[k]? := by
    rw [← Array.getElem?_toList, h, List.getElem?_append_right (Nat.le_add_right ..),
      Nat.add_sub_cancel_left]
  have hopcode : c.code[before.length]? = some i.opcode.byte := hbyte 0
  have hof : Opcode.ofByte? i.opcode.byte = some i.opcode := Opcode.ofByte?_eq_some_iff.2 rfl
  simp only [decode, hopcode, hof]
  -- Only a constant has a byte behind its opcode that decoding looks at.
  cases i with
  | constant index =>
    have hindex : c.code[before.length + 1]? = some index := hbyte 1
    simp only [Instruction.opcode, hindex]
  | operator op => rfl
  | negate => rfl
  | ret => rfl

theorem decode_assemble (before after : List (Instruction × Nat)) (placed : Instruction × Nat)
    (constants : List Value) :
    (assemble (before ++ placed :: after) constants).decode (extent before) = .ok placed.1 := by
  have hcode : (assemble (before ++ placed :: after) constants).code.toList =
      before.flatMap (fun placed => placed.1.encode) ++
        (placed.1.encode ++ after.flatMap fun placed => placed.1.encode) := by
    rw [assemble, List.flatMap_append, List.flatMap_cons]
  rw [← length_flatMap_encode before]
  exact decode_of_code_eq hcode

theorem line?_assemble (before after : List (Instruction × Nat)) (placed : Instruction × Nat)
    (constants : List Value) {k : Nat} (hk : k < placed.1.size) :
    (assemble (before ++ placed :: after) constants).line? (extent before + k) =
      some placed.2 := by
  rw [line?, assemble, List.getElem?_toArray, List.flatMap_append, List.flatMap_cons,
    List.getElem?_append_right (by rw [length_flatMap_replicate]; omega),
    length_flatMap_replicate, Nat.add_sub_cancel_left,
    List.getElem?_append_left (by rw [List.length_replicate]; exact hk),
    List.getElem?_replicate_of_lt hk]

/-- An entry of a walk is an instruction, and all bytes of it have this line. -/
def Shows (c : Chunk) (entry : Nat × Except DecodeError Instruction)
    (placed : Instruction × Nat) : Prop :=
  entry.2 = .ok placed.1 ∧ ∀ k < placed.1.size, c.line? (entry.1 + k) = some placed.2

/-- The walk over an assembled chunk meets its instructions and nothing else. -/
theorem walkFrom_assemble (constants : List Value) (before after : List (Instruction × Nat)) :
    List.Forall₂ (assemble (before ++ after) constants).Shows
      ((assemble (before ++ after) constants).walkFrom (extent before)) after := by
  -- The walk moves instructions from `after` to `before`; the chunk stays the same.
  induction after generalizing before with
  | nil =>
    rw [walkFrom, dif_neg (by rw [size_assemble, List.append_nil]; omega)]
    exact .nil
  | cons placed after ih =>
    have hdecode := decode_assemble before after placed constants
    have hnext : (assemble (before ++ placed :: after) constants).next (extent before) =
        extent (before ++ [placed]) := by
      simp only [next, hdecode, extent_append, extent_cons, extent_nil, Nat.add_zero]
    have hsize := placed.1.size_pos
    rw [walkFrom, dif_pos (by rw [size_assemble, extent_append, extent_cons]; omega), hnext]
    refine .cons ⟨hdecode, fun k hk => line?_assemble before after placed constants hk⟩ ?_
    have htail := ih (before ++ [placed])
    rwa [List.append_assoc, List.singleton_append] at htail

theorem walk_assemble (code : List (Instruction × Nat)) (constants : List Value) :
    List.Forall₂ (assemble code constants).Shows (assemble code constants).walk code :=
  walkFrom_assemble constants [] code

/-! ## Code at an offset -/

/-- From the offset on, the chunk decodes to these instructions. -/
def HasCode (c : Chunk) : Nat → List (Instruction × Nat) → Prop
  | _, [] => True
  | offset, placed :: code =>
    c.decode offset = .ok placed.1 ∧ c.HasCode (offset + placed.1.size) code

theorem hasCode_append {c : Chunk} {offset : Nat} {code more : List (Instruction × Nat)} :
    c.HasCode offset (code ++ more) ↔
      c.HasCode offset code ∧ c.HasCode (offset + extent code) more := by
  induction code generalizing offset with
  | nil => simp only [List.nil_append, HasCode, extent_nil, Nat.add_zero, true_and]
  | cons placed code ih =>
    rw [List.cons_append, HasCode, ih, HasCode, extent_cons, Nat.add_assoc, and_assoc]

theorem hasCode_assemble (constants : List Value) (before after : List (Instruction × Nat)) :
    (assemble (before ++ after) constants).HasCode (extent before) after := by
  induction after generalizing before with
  | nil => trivial
  | cons placed after ih =>
    refine ⟨decode_assemble before after placed constants, ?_⟩
    have htail := ih (before ++ [placed])
    rwa [List.append_assoc, List.singleton_append, extent_append, extent_cons, extent_nil,
      Nat.add_zero] at htail

end Chunk

/-! ## Constants at a position -/

namespace Pool

/-- From the position on, the pool holds these values. -/
def Holds (pool : Pool) : Nat → List Value → Prop
  | _, [] => True
  | index, v :: vs => pool.get? index = some v ∧ pool.Holds (index + 1) vs

/-- An operand byte finds the value at its position. -/
theorem Holds.get?_operand {pool : Pool} {index : Nat} {v : Value} {vs : List Value}
    (h : pool.Holds index (v :: vs)) (hindex : index < Chunk.maxConstants) :
    pool.get? (UInt8.ofNat index).toNat = some v := by
  rw [Chunk.toNat_ofNat_of_lt_maxConstants hindex]
  exact h.1

theorem holds_append {pool : Pool} {index : Nat} {vs ws : List Value} :
    pool.Holds index (vs ++ ws) ↔ pool.Holds index vs ∧ pool.Holds (index + vs.length) ws := by
  induction vs generalizing index with
  | nil => simp only [List.nil_append, Holds, List.length_nil, Nat.add_zero, true_and]
  | cons v vs ih =>
    rw [List.cons_append, Holds, ih, Holds, List.length_cons, and_assoc, Nat.add_assoc,
      Nat.add_comm 1]

theorem holds_of_values_eq {pool : Pool} {vs ws : List Value}
    (h : pool.values.toList = vs ++ ws) : pool.Holds vs.length ws := by
  induction ws generalizing vs with
  | nil => trivial
  | cons w ws ih =>
    refine ⟨?_, ?_⟩
    · rw [get?, ← Array.getElem?_toList, h, List.getElem?_append_right (Nat.le_refl _),
        Nat.sub_self, List.getElem?_cons_zero]
    · have hrest : pool.values.toList = (vs ++ [w]) ++ ws := by
        rw [h, List.append_assoc, List.singleton_append]
      have htail := ih hrest
      rwa [List.length_append, List.length_singleton] at htail

end Pool

end ArithVM
