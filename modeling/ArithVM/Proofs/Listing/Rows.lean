import ArithVM.Listing
import ArithVM.Proofs.Chunk.Tiling
import ArithVM.Proofs.Text.OneLine

/-!
# Rows — listings and walks

A listing goes through the code as a walk does.  Wherever a row is asked for inside the code there is
one, it takes one line that begins with the offset, and the next row belongs to the next entry.
-/

namespace ArithVM

open Text

namespace Chunk

/-! ## Columns -/

theorem oneLine_lineColumn (c : Chunk) (offset : Nat) : OneLine (c.lineColumn offset) := by
  unfold lineColumn
  split
  · decide
  · split
    · decide
    · exact OneLine.append_iff.2 ⟨(OneLine.toString_nat _).padLeft 4 (by decide), by decide⟩

theorem oneLine_constantText (c : Chunk) (index : UInt8) : OneLine (c.constantText index) := by
  unfold constantText
  split
  · simp only [OneLine.append_iff]
    exact ⟨⟨by decide, OneLine.valueText _⟩, by decide⟩
  · decide

theorem oneLine_mnemonic (op : Opcode) : OneLine op.mnemonic := by
  rcases op with _ | op | _ | _
  · decide
  · cases op <;> decide
  · decide
  · decide

/-! ## Rows -/

/-- A row for this offset: one line that begins with the offset. -/
def IsRow (offset : Nat) (text : String) : Prop :=
  ∃ columns, text = padLeft 4 '0' (toString offset) ++ " " ++ columns ∧ OneLine text

theorem isRow_append (c : Chunk) (offset : Nat) {columns : String} (h : OneLine columns) :
    IsRow offset (padLeft 4 '0' (toString offset) ++ " " ++ c.lineColumn offset ++ columns) := by
  have hoffset : OneLine (padLeft 4 '0' (toString offset)) :=
    (OneLine.toString_nat offset).padLeft 4 (by decide)
  refine ⟨c.lineColumn offset ++ columns, String.append_assoc .., ?_⟩
  simp only [OneLine.append_iff]
  exact ⟨⟨⟨hoffset, by decide⟩, oneLine_lineColumn c offset⟩, h⟩

/-- What a row shows of the entry for it. -/
def entryText (c : Chunk) : Except DecodeError Instruction → String
  | .ok (.constant index) => padRight 16 Opcode.constant.mnemonic ++ " "
      ++ padLeft 4 ' ' (toString index.toNat) ++ " " ++ c.constantText index
  | .ok i => i.opcode.mnemonic
  | .error (.unknownOpcode byte _) => "Unknown opcode " ++ toString byte.toNat
  | .error (.missingOperand op _) => padRight 16 op.mnemonic ++ " <missing operand>"
  | .error (.outOfBounds _) => ""

/-- The row for an offset inside the code. -/
def rowText (c : Chunk) (offset : Nat) : String :=
  padLeft 4 '0' (toString offset) ++ " " ++ c.lineColumn offset ++ c.entryText (c.decode offset)

theorem oneLine_entryText (c : Chunk) (entry : Except DecodeError Instruction) :
    OneLine (c.entryText entry) := by
  unfold entryText
  split
  next index =>
    have hindex : OneLine (padLeft 4 ' ' (toString index.toNat)) :=
      (OneLine.toString_nat _).padLeft 4 (by decide)
    simp only [OneLine.append_iff]
    exact ⟨⟨⟨⟨by decide, by decide⟩, hindex⟩, by decide⟩, oneLine_constantText c index⟩
  next => exact oneLine_mnemonic _
  next => exact OneLine.append_iff.2 ⟨by decide, OneLine.toString_nat _⟩
  next op _ => exact OneLine.append_iff.2 ⟨(oneLine_mnemonic op).padRight 16, by decide⟩
  next => decide

theorem isRow_rowText (c : Chunk) (offset : Nat) : IsRow offset (c.rowText offset) :=
  isRow_append c offset (c.oneLine_entryText _)

theorem row?_eq_some {c : Chunk} {offset : Nat} (h : offset < c.size) :
    c.row? offset = some ⟨c.rowText offset, c.next offset⟩ := by
  unfold row? next rowText
  cases hdecode : c.decode offset with
  | ok i =>
    cases i with
    | constant index =>
      simp only [entryText, String.append_assoc]
      rfl
    | operator op => rfl
    | negate => rfl
    | ret => rfl
  | error e =>
    cases e with
    | unknownOpcode byte place => simp only [entryText, String.append_assoc]
    | missingOperand op place => simp only [entryText, String.append_assoc]
    | outOfBounds place => exact absurd hdecode (decode_ne_outOfBounds h place)

/-- Inside the code there is a row for every offset, and the next one is where the next entry is. -/
theorem row?_of_lt {c : Chunk} {offset : Nat} (h : offset < c.size) :
    ∃ text, IsRow offset text ∧ c.row? offset = some ⟨text, c.next offset⟩ :=
  ⟨_, c.isRow_rowText offset, row?_eq_some h⟩

theorem row?_of_le {c : Chunk} {offset : Nat} (h : c.size ≤ offset) : c.row? offset = none := by
  simp only [row?, decode_of_le h]

/-! ## Listings -/

theorem disassembleAt_of_lt {c : Chunk} {offset : Nat} (h : offset < c.size) :
    ∃ text, IsRow offset text ∧ c.disassembleAt offset = (text ++ "\n", c.next offset) := by
  obtain ⟨text, hrow, hsome⟩ := row?_of_lt h
  exact ⟨text, hrow, by rw [disassembleAt, hsome]⟩

theorem disassembleAt_of_le {c : Chunk} {offset : Nat} (h : c.size ≤ offset) :
    c.disassembleAt offset = ("", offset) := by
  rw [disassembleAt, row?_of_le h]

/-- The rows of a listing are those of the entries of a walk. -/
theorem map_rowsFrom (c : Chunk) (offset : Nat) :
    (c.rowsFrom offset).map (fun row => row.text ++ "\n") =
      (c.walkFrom offset).map fun entry => (c.disassembleAt entry.1).1 := by
  fun_induction walkFrom c offset with
  | case1 offset hlt ih =>
    obtain ⟨text, -, hsome⟩ := row?_of_lt hlt
    rw [rowsFrom]
    split
    next row hrow =>
      rw [hsome] at hrow
      cases hrow
      rw [List.map_cons, List.map_cons, ih, disassembleAt, hsome]
    next hnone =>
      rw [hsome] at hnone
      contradiction
  | case2 offset hge =>
    rw [rowsFrom]
    split
    next row hrow =>
      rw [row?_of_le (Nat.not_lt.1 hge)] at hrow
      contradiction
    next => rfl

/-- **A listing follows the walk.**  Under its heading it has the row of every entry, in order.
    Asked for at any offset of the code, in the middle of an instruction too, the row is one line
    and leads on to where a walk from there would go; behind the code there is none. -/
theorem listing_follows_walk (c : Chunk) :
    (∀ name, c.listing name = "== " ++ name ++ " ==\n" ++
      String.join (c.walk.map fun entry => (c.disassembleAt entry.1).1)) ∧
    (∀ entry ∈ c.walk, entry.1 < c.size) ∧
    (∀ offset < c.size,
      (∃ text, IsRow offset text ∧ c.disassembleAt offset = (text ++ "\n", c.next offset)) ∧
      offset < c.next offset ∧ c.next offset ≤ c.size ∧
      ∀ place, c.decode offset ≠ .error (.outOfBounds place)) ∧
    ∀ offset, c.size ≤ offset → c.disassembleAt offset = ("", offset) := by
  refine ⟨?_, fun entry hmem => (mem_walkFrom hmem).1, ?_, fun offset => disassembleAt_of_le⟩
  · intro name
    rw [listing, map_rowsFrom, walk]
  · intro offset h
    exact ⟨disassembleAt_of_lt h, lt_next h, next_le h, decode_ne_outOfBounds h⟩

/-- A row in the middle of an instruction, where the lines are fewer than the bytes. -/
theorem listing_follows_walk_inside :
    ∃ text, IsRow 1 text ∧
      disassembleAt { code := #[0, 9, 200, 0], lines := #[3] } 1 = (text ++ "\n", 2) ∧
      listing { code := #[0, 9, 200, 0], lines := #[3] } "code" =
        "== code ==\n0000    3 OP_CONSTANT         9 <no such constant>\n" ++
          "0002    ? Unknown opcode 200\n0003    ? OP_CONSTANT      <missing operand>\n" := by
  obtain ⟨hlisting, -, hinside, -⟩ :=
    listing_follows_walk { code := #[0, 9, 200, 0], lines := #[3] }
  obtain ⟨⟨text, hrow, hat⟩, -⟩ := hinside 1 (by decide)
  refine ⟨text, hrow, hat, ?_⟩
  rw [hlisting]
  decide +kernel

end Chunk

end ArithVM
