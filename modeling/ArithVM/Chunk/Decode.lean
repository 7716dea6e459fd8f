import ArithVM.Chunk

/-!
# Decoding — bytes read as instructions

`Chunk.decode` reads the instruction at any offset.  `Chunk.walk` reads from the front, each time
where the entry before it ended: an unknown byte is an entry of one byte, and a last instruction
without its operand ends the walk.  Every entry lies inside the code and the next one behind it.
-/

namespace ArithVM

/-- Why there is no instruction at an offset. -/
inductive DecodeError where
  | unknownOpcode (byte : UInt8) (offset : Nat)
  | missingOperand (op : Opcode) (offset : Nat)
  | outOfBounds (offset : Nat)
deriving DecidableEq, Repr

namespace DecodeError

def message : DecodeError → String
  | .unknownOpcode byte offset =>
    "unknown opcode " ++ toString byte.toNat ++ " at offset " ++ toString offset
  | .missingOperand op offset =>
    op.mnemonic ++ " at offset " ++ toString offset ++ " is missing its operand"
  | .outOfBounds offset =>
    "offset " ++ toString offset ++ " is past the end of the chunk"

end DecodeError

namespace Chunk

/-- The instruction that begins at `offset`. -/
def decode (c : Chunk) (offset : Nat) : Except DecodeError Instruction :=
  match c.code[offset]? with
  | none => .error (.outOfBounds offset)
  | some byte =>
    match Opcode.ofByte? byte with
    | none => .error (.unknownOpcode byte offset)
    | some .constant =>
      match c.code[offset + 1]? with
      | none => .error (.missingOperand .constant offset)
      | some index => .ok (.constant index)
    | some (.operator op) => .ok (.operator op)
    | some .negate => .ok .negate
    | some .ret => .ok .ret

theorem lt_size_of_decode_eq_ok {c : Chunk} {offset : Nat} {i : Instruction}
    (h : c.decode offset = .ok i) : offset < c.size := by
  rcases Nat.lt_or_ge offset c.size with hlt | hge
  · exact hlt
  · simp [decode, Array.getElem?_eq_none hge] at h

/-- Where the entry after the one at `offset` begins. -/
def next (c : Chunk) (offset : Nat) : Nat :=
  match c.decode offset with
  | .ok i => offset + i.size
  | .error (.unknownOpcode ..) => offset + 1
  | .error _ => c.size

theorem lt_next {c : Chunk} {offset : Nat} (h : offset < c.size) : offset < c.next offset := by
  unfold next
  split
  next i _ => have := i.size_pos; omega
  next => omega
  next => exact h

/-- The entries from `offset` on. -/
def walkFrom (c : Chunk) (offset : Nat) : List (Nat × Except DecodeError Instruction) :=
  if _ : offset < c.size then
    (offset, c.decode offset) :: walkFrom c (c.next offset)
  else
    []
termination_by c.size - offset
decreasing_by
  have := lt_next ‹offset < c.size›
  omega

/-- The whole code, entry by entry, each with its offset. -/
def walk (c : Chunk) : List (Nat × Except DecodeError Instruction) :=
  c.walkFrom 0

end Chunk

end ArithVM
