import ArithVM.Proofs.Chunk.Assembly

/-!
# Tilings — code and entries, back and forth

The entries of a walk lie one behind the other and cover the code.  Written out again they give its
bytes, malformed ones included; and code that was written out of instructions is read as these.
-/

namespace ArithVM

namespace Chunk

/-! ## Entries -/

/-- The bytes that an entry of a walk stands for. -/
def entryBytes : Except DecodeError Instruction → List UInt8
  | .ok i => i.encode
  | .error (.unknownOpcode byte _) => [byte]
  | .error (.missingOperand op _) => [op.byte]
  | .error (.outOfBounds _) => []

/-- What decoding makes of the code from an offset on. -/
inductive Reads (offset : Nat) : List UInt8 → Except DecodeError Instruction → Prop where
  | instruction (i : Instruction) (after : List UInt8) : Reads offset (i.encode ++ after) (.ok i)
  | unknown {byte : UInt8} (hbyte : Opcode.ofByte? byte = none) (after : List UInt8) :
    Reads offset (byte :: after) (.error (.unknownOpcode byte offset))
  | truncated : Reads offset [Opcode.constant.byte] (.error (.missingOperand .constant offset))

theorem drop_code {c : Chunk} {offset : Nat} (h : offset < c.size) :
    c.code.toList.drop offset = c.code[offset] :: c.code.toList.drop (offset + 1) := by
  have hlength : offset < c.code.toList.length := by
    rw [Array.length_toList]
    exact h
  rw [List.drop_eq_getElem_cons hlength, Array.getElem_toList]
  rfl

theorem drop_code_eq_nil {c : Chunk} {offset : Nat} (h : c.size ≤ offset) :
    c.code.toList.drop offset = [] := by
  apply List.drop_eq_nil_of_le
  rw [Array.length_toList]
  exact h

theorem reads_decode {c : Chunk} {offset : Nat} (h : offset < c.size) :
    Reads offset (c.code.toList.drop offset) (c.decode offset) := by
  have hbyte : c.code[offset]? = some c.code[offset] := Array.getElem?_eq_getElem h
  rw [drop_code h]
  simp only [decode, hbyte]
  cases hop : Opcode.ofByte? c.code[offset] with
  | none => exact .unknown hop _
  | some op =>
    rw [Opcode.ofByte?_eq_some_iff.1 hop]
    cases op with
    | constant =>
      by_cases hlt : offset + 1 < c.size
      · have hindex : c.code[offset + 1]? = some c.code[offset + 1] :=
          Array.getElem?_eq_getElem hlt
        rw [drop_code hlt]
        simp only [hindex]
        exact .instruction (.constant _) _
      · have hindex : c.code[offset + 1]? = none := Array.getElem?_eq_none (Nat.not_lt.1 hlt)
        rw [drop_code_eq_nil (Nat.not_lt.1 hlt)]
        simp only [hindex]
        exact .truncated
    | operator op => exact .instruction (.operator op) _
    | negate => exact .instruction .negate _
    | ret => exact .instruction .ret _

theorem exists_reads {c : Chunk} {offset : Nat} {entry : Except DecodeError Instruction}
    (h : offset < c.size) (hdecode : c.decode offset = entry) :
    ∃ code, c.code.toList.drop offset = code ∧ Reads offset code entry := by
  rw [← hdecode]
  exact ⟨_, rfl, reads_decode h⟩

/-- The next entry begins behind the bytes of this one. -/
theorem next_eq {c : Chunk} {offset : Nat} (h : offset < c.size) :
    c.next offset = offset + (entryBytes (c.decode offset)).length := by
  obtain ⟨code, hcode, hreads⟩ := exists_reads h rfl
  have hlength := congrArg List.length hcode
  rw [List.length_drop, Array.length_toList] at hlength
  have hsize : c.code.size = c.size := rfl
  unfold next
  generalize c.decode offset = entry at hreads
  cases hreads with
  | instruction i after => rw [entryBytes, Instruction.length_encode]
  | unknown _ after => rfl
  | truncated =>
    -- What is left of the code is one byte long.
    simp only [List.length_singleton, entryBytes] at hlength ⊢
    omega

theorem drop_code_eq_append {c : Chunk} {offset : Nat} (h : offset < c.size) :
    c.code.toList.drop offset =
      entryBytes (c.decode offset) ++ c.code.toList.drop (c.next offset) := by
  have hafter : ∃ after, c.code.toList.drop offset = entryBytes (c.decode offset) ++ after := by
    obtain ⟨code, hcode, hreads⟩ := exists_reads h rfl
    rw [hcode]
    generalize c.decode offset = entry at hreads
    cases hreads with
    | instruction i after => exact ⟨after, rfl⟩
    | unknown _ after => exact ⟨after, rfl⟩
    | truncated => exact ⟨[], rfl⟩
  obtain ⟨after, hafter⟩ := hafter
  rw [next_eq h, ← List.drop_drop, hafter, List.drop_left]

theorem length_entryBytes_pos {c : Chunk} {offset : Nat} (h : offset < c.size) :
    0 < (entryBytes (c.decode offset)).length := by
  have hlt := lt_next h
  rw [next_eq h] at hlt
  omega

theorem next_le {c : Chunk} {offset : Nat} (h : offset < c.size) : c.next offset ≤ c.size := by
  have hnext := next_eq h
  have hlength := congrArg List.length (drop_code_eq_append h)
  rw [List.length_append, List.length_drop, Array.length_toList] at hlength
  have hsize : c.code.size = c.size := rfl
  omega

theorem add_size_le_of_decode_eq_ok {c : Chunk} {offset : Nat} {i : Instruction}
    (h : c.decode offset = .ok i) : offset + i.size ≤ c.size := by
  have hle := next_le (lt_size_of_decode_eq_ok h)
  rw [next, h] at hle
  exact hle

theorem decode_of_le {c : Chunk} {offset : Nat} (h : c.size ≤ offset) :
    c.decode offset = .error (.outOfBounds offset) := by
  simp only [decode, Array.getElem?_eq_none h]

theorem decode_ne_outOfBounds {c : Chunk} {offset : Nat} (h : offset < c.size) (place : Nat) :
    c.decode offset ≠ .error (.outOfBounds place) := by
  intro hdecode
  obtain ⟨code, -, hreads⟩ := exists_reads h hdecode
  cases hreads

/-! ## Tilings -/

/-- The entries cover the code from one offset to another, without gap or overlap. -/
inductive Tiles : Nat → List (Nat × Except DecodeError Instruction) → Nat → Prop where
  | nil {offset : Nat} : Tiles offset [] offset
  | cons {offset stop : Nat} {entry : Except DecodeError Instruction}
    {entries : List (Nat × Except DecodeError Instruction)} (hpos : 0 < (entryBytes entry).length)
    (hrest : Tiles (offset + (entryBytes entry).length) entries stop) :
    Tiles offset ((offset, entry) :: entries) stop

theorem Tiles.le_offset {start stop : Nat} {entries : List (Nat × Except DecodeError Instruction)}
    (h : Tiles start entries stop) : ∀ entry ∈ entries, start ≤ entry.1 := by
  induction h with
  | nil => simp
  | cons hpos _ ih =>
    refine List.forall_mem_cons.2 ⟨Nat.le_refl _, ?_⟩
    intro entry hmem
    have hle := ih entry hmem
    omega

theorem Tiles.pairwise {start stop : Nat} {entries : List (Nat × Except DecodeError Instruction)}
    (h : Tiles start entries stop) : (entries.map Prod.fst).Pairwise (· < ·) := by
  induction h with
  | nil => exact .nil
  | cons hpos hrest ih =>
    refine List.pairwise_cons.2 ⟨?_, ih⟩
    intro offset hmem
    obtain ⟨entry, hentry, rfl⟩ := List.mem_map.1 hmem
    have hle := hrest.le_offset entry hentry
    omega

theorem tiles_walkFrom {c : Chunk} {offset : Nat} (h : offset ≤ c.size) :
    Tiles offset (c.walkFrom offset) c.size := by
  fun_induction walkFrom c offset with
  | case1 offset hlt ih =>
    apply Tiles.cons (length_entryBytes_pos hlt)
    rw [← next_eq hlt]
    exact ih (next_le hlt)
  | case2 offset hge =>
    rw [Nat.le_antisymm h (Nat.not_lt.1 hge)]
    exact .nil

theorem flatMap_walkFrom (c : Chunk) (offset : Nat) :
    (c.walkFrom offset).flatMap (fun entry => entryBytes entry.2) = c.code.toList.drop offset := by
  fun_induction walkFrom c offset with
  | case1 offset hlt ih => rw [List.flatMap_cons, ih, ← drop_code_eq_append hlt]
  | case2 offset hge => rw [drop_code_eq_nil (Nat.not_lt.1 hge), List.flatMap_nil]

theorem mem_walkFrom {c : Chunk} {offset : Nat} {entry : Nat × Except DecodeError Instruction}
    (h : entry ∈ c.walkFrom offset) : entry.1 < c.size ∧ entry.2 = c.decode entry.1 := by
  fun_induction walkFrom c offset with
  | case1 offset hlt ih =>
    obtain rfl | hmem := List.mem_cons.1 h
    · exact ⟨hlt, rfl⟩
    · exact ih hmem
  | case2 offset hge => contradiction

/-! ## Malformed entries -/

theorem of_decode_eq_unknownOpcode {c : Chunk} {offset place : Nat} {byte : UInt8}
    (h : offset < c.size) (hdecode : c.decode offset = .error (.unknownOpcode byte place)) :
    place = offset ∧ c.code[offset]? = some byte ∧ Opcode.ofByte? byte = none := by
  obtain ⟨code, hcode, hreads⟩ := exists_reads h hdecode
  rw [drop_code h] at hcode
  cases hreads with
  | unknown hbyte =>
    rw [← (List.cons.inj hcode).1] at hbyte ⊢
    exact ⟨rfl, Array.getElem?_eq_getElem h, hbyte⟩

theorem of_decode_eq_missingOperand {c : Chunk} {offset place : Nat} {op : Opcode}
    (h : offset < c.size) (hdecode : c.decode offset = .error (.missingOperand op place)) :
    place = offset ∧ op = .constant ∧ offset + 1 = c.size := by
  have hnext := next_eq h
  rw [next, hdecode] at hnext
  obtain ⟨code, -, hreads⟩ := exists_reads h hdecode
  cases hreads with
  | truncated => exact ⟨rfl, rfl, hnext.symm⟩

/-- An entry behind which the code is at its end closes the walk. -/
theorem getLast?_walkFrom {c : Chunk} {offset : Nat} {entry : Nat × Except DecodeError Instruction}
    (h : entry ∈ c.walkFrom offset) (hend : c.next entry.1 = c.size) :
    (c.walkFrom offset).getLast? = some entry := by
  fun_induction walkFrom c offset with
  | case1 offset hlt ih =>
    obtain rfl | hmem := List.mem_cons.1 h
    · rw [hend, walkFrom, dif_neg (Nat.lt_irrefl _), List.getLast?_singleton]
    · rw [List.getLast?_cons, ih hmem, Option.getD_some]
  | case2 offset hge => contradiction

/-! ## Instructions -/

/-- The number of bytes that instructions take together. -/
def totalSize : List Instruction → Nat
  | [] => 0
  | i :: code => i.size + totalSize code

/-- Code written out of instructions is read as these, each where the ones before it end. -/
theorem walkFrom_encode {c : Chunk} {before : List UInt8} {code : List Instruction}
    (h : c.code.toList = before ++ code.flatMap Instruction.encode) :
    c.walkFrom before.length =
      code.mapIdx fun k i => (before.length + totalSize (code.take k), .ok i) := by
  have hsize : c.size = before.length + (code.flatMap Instruction.encode).length := by
    rw [← List.length_append, ← h, Array.length_toList]
    rfl
  -- The walk moves the bytes of one instruction after the other into `before`.
  induction code generalizing before with
  | nil => rw [walkFrom, dif_neg (by rw [hsize]; exact Nat.lt_irrefl _), List.mapIdx_nil]
  | cons i code ih =>
    have hpos := i.size_pos
    rw [List.flatMap_cons] at h hsize
    have hdecode := decode_of_code_eq h
    rw [List.length_append, Instruction.length_encode] at hsize
    have hnext : c.next before.length = (before ++ i.encode).length := by
      simp only [next, hdecode, List.length_append, Instruction.length_encode]
    have hcode : c.code.toList = (before ++ i.encode) ++ code.flatMap Instruction.encode := by
      rw [List.append_assoc, h]
    have hrest := ih hcode (by rw [List.length_append, Instruction.length_encode]; omega)
    rw [walkFrom, dif_pos (by omega), hdecode, hnext, hrest, List.mapIdx_cons]
    simp only [List.length_append, Instruction.length_encode, List.take_zero, List.take_succ_cons,
      totalSize, Nat.add_zero, Nat.add_assoc]

/-- **Encoding and decoding are inverse.**  What instructions are written as is read as the same
    instructions, each at the total size of those before it.  Of any code, well-formed or not, the
    entries follow each other without gap or overlap and are written as the same code. -/
theorem walk_encode_inverse :
    (∀ (code : List Instruction) (lines : Array Nat) (constants : Pool),
      walk ⟨(code.flatMap Instruction.encode).toArray, lines, constants⟩ =
        code.mapIdx fun k i => (totalSize (code.take k), .ok i)) ∧
    ∀ c : Chunk,
      (c.walk.map Prod.fst).Pairwise (· < ·) ∧ Tiles 0 c.walk c.size ∧
      (∀ offset byte place, (offset, .error (.unknownOpcode byte place)) ∈ c.walk →
        place = offset ∧ c.code[offset]? = some byte ∧ Opcode.ofByte? byte = none) ∧
      (∀ offset op place, (offset, .error (.missingOperand op place)) ∈ c.walk →
        place = offset ∧ op = .constant ∧ offset + 1 = c.size ∧
          c.walk.getLast? = some (offset, .error (.missingOperand op place))) ∧
      c.walk.flatMap (fun entry => entryBytes entry.2) = c.code.toList := by
  refine ⟨?_, ?_⟩
  · intro code lines constants
    have hcode : (Chunk.mk (code.flatMap Instruction.encode).toArray lines constants).code.toList =
        [] ++ code.flatMap Instruction.encode := rfl
    have hwalk := walkFrom_encode hcode
    simp only [List.length_nil, Nat.zero_add] at hwalk
    exact hwalk
  · intro c
    have htiles := tiles_walkFrom (Nat.zero_le c.size)
    refine ⟨htiles.pairwise, htiles, ?_, ?_, flatMap_walkFrom c 0⟩
    · intro offset byte place hmem
      obtain ⟨hlt, hdecode⟩ := mem_walkFrom hmem
      exact of_decode_eq_unknownOpcode hlt hdecode.symm
    · intro offset op place hmem
      obtain ⟨hlt, hdecode⟩ := mem_walkFrom hmem
      obtain ⟨hplace, hop, hsize⟩ := of_decode_eq_missingOperand hlt hdecode.symm
      refine ⟨hplace, hop, hsize, getLast?_walkFrom hmem ?_⟩
      rw [next, ← hdecode]

/-- An operand that looks like an opcode, a byte that is none, and a constant cut off. -/
theorem walk_encode_malformed :
    walk { code := #[0, 6, 200, 0] } =
        [(0, .ok (.constant 6)), (2, .error (.unknownOpcode 200 2)),
          (3, .error (.missingOperand .constant 3))] ∧
      Opcode.ofByte? 200 = none ∧
      (walk { code := #[0, 6, 200, 0] }).getLast? =
        some (3, .error (.missingOperand .constant 3)) ∧
      (walk { code := #[0, 6, 200, 0] }).flatMap (fun entry => entryBytes entry.2) =
        [0, 6, 200, 0] := by
  have hwalk : walk { code := #[0, 6, 200, 0] } =
      [(0, .ok (.constant 6)), (2, .error (.unknownOpcode 200 2)),
        (3, .error (.missingOperand .constant 3))] := by
    decide +kernel
  obtain ⟨-, -, hunknown, hmissing, hbytes⟩ := walk_encode_inverse.2 { code := #[0, 6, 200, 0] }
  have hbyte := hunknown 2 200 2 (by rw [hwalk]; simp)
  have hlast := hmissing 3 .constant 3 (by rw [hwalk]; simp)
  exact ⟨hwalk, hbyte.2.2, hlast.2.2.2, hbytes⟩

end Chunk

end ArithVM
