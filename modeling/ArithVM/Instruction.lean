import ArithVM.Value

/-!
# Instructions — what the machine can be told to do

An instruction is one opcode byte, followed by one operand byte if the opcode takes an operand.
`Instruction.encode` writes these bytes; reading them back is the business of chunks.
-/

namespace ArithVM

/-- The four arithmetic operations on two values. -/
inductive Operator where
  | add | subtract | multiply | divide
deriving DecidableEq, Repr

namespace Operator

/-- The result for a left and a right operand. -/
def apply : Operator → Value → Value → Value
  | .add => (· + ·)
  | .subtract => (· - ·)
  | .multiply => (· * ·)
  | .divide => (· / ·)

end Operator

/-- The kinds of instructions. -/
inductive Opcode where
  | constant
  | operator (op : Operator)
  | negate
  | ret
deriving DecidableEq, Repr

namespace Opcode

/-- The byte that stands for an opcode. -/
def byte : Opcode → UInt8
  | .constant => 0
  | .operator .add => 1
  | .operator .subtract => 2
  | .operator .multiply => 3
  | .operator .divide => 4
  | .negate => 5
  | .ret => 6

/-- The opcode that a byte stands for, if any. -/
def ofByte? (byte : UInt8) : Option Opcode :=
  match byte.toNat with
  | 0 => some .constant
  | 1 => some (.operator .add)
  | 2 => some (.operator .subtract)
  | 3 => some (.operator .multiply)
  | 4 => some (.operator .divide)
  | 5 => some .negate
  | 6 => some .ret
  | _ => none

theorem ofByte?_eq_some_iff {byte : UInt8} {op : Opcode} :
    ofByte? byte = some op ↔ byte = op.byte := by
  constructor
  · intro h
    unfold ofByte? at h
    apply UInt8.toNat_inj.1
    split at h <;> simp_all <;> subst h <;> rfl
  · rintro rfl
    rcases op with _ | op | _ | _ <;> first | rfl | (cases op <;> rfl)

/-- What an opcode is called in listings. -/
def mnemonic : Opcode → String
  | .constant => "OP_CONSTANT"
  | .operator .add => "OP_ADD"
  | .operator .subtract => "OP_SUBTRACT"
  | .operator .multiply => "OP_MULTIPLY"
  | .operator .divide => "OP_DIVIDE"
  | .negate => "OP_NEGATE"
  | .ret => "OP_RETURN"

/-- The number of operand bytes after the opcode byte. -/
def operandWidth : Opcode → Nat
  | .constant => 1
  | _ => 0

end Opcode

/-- An opcode with its operand. -/
inductive Instruction where
  /-- Push the constant at a position of the pool. -/
  | constant (index : UInt8)
  /-- Replace the two topmost values by the result of an operation on them. -/
  | operator (op : Operator)
  /-- Negate the topmost value. -/
  | negate
  /-- Stop with the topmost value as the result. -/
  | ret
deriving DecidableEq, Repr

namespace Instruction

def opcode : Instruction → Opcode
  | .constant _ => .constant
  | .operator op => .operator op
  | .negate => .negate
  | .ret => .ret

/-- The operand byte, if there is one. -/
def operand? : Instruction → Option UInt8
  | .constant index => some index
  | _ => none

/-- The number of bytes that an instruction takes. -/
def size (i : Instruction) : Nat :=
  1 + i.opcode.operandWidth

/-- The bytes of an instruction. -/
def encode (i : Instruction) : List UInt8 :=
  i.opcode.byte :: i.operand?.toList

theorem length_encode (i : Instruction) : i.encode.length = i.size := by
  cases i <;> rfl

theorem size_pos (i : Instruction) : 0 < i.size := by
  simp only [size]
  omega

end Instruction

end ArithVM
