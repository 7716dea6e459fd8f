import ArithVM.Chunk.Decode
import ArithVM.ErrorCode

/-!
# Faults — what stops a run

A fault is a cause; a runtime error is a fault at an instruction of a chunk.  Arithmetic never
faults.
-/

namespace ArithVM

/-- Why an instruction cannot be carried out. -/
inductive Fault where
  | stackUnderflow
  | stackOverflow
  | unknownOpcode (byte : UInt8)
  | missingOperand (mnemonic : String)
  | badConstant (index : UInt8)
  | missingReturn
deriving DecidableEq, Repr

namespace Fault

/-- The greatest height of an operand stack. -/
def maxStack : Nat := 256

def code : Fault → ErrorCode
  | .stackUnderflow => .stackUnderflow
  | .stackOverflow => .stackOverflow
  | .unknownOpcode _ => .unknownOpcode
  | .missingOperand _ => .malformedInstruction
  | .badConstant _ => .malformedInstruction
  | .missingReturn => .malformedInstruction

def message : Fault → String
  | .stackUnderflow => "stack underflow"
  | .stackOverflow => "stack overflow (more than " ++ toString maxStack ++ " values)"
  | .unknownOpcode byte => "unknown opcode: " ++ toString byte.toNat
  | .missingOperand mnemonic => mnemonic ++ " is missing its operand"
  | .badConstant index => "constant index " ++ toString index.toNat ++ " out of range"
  | .missingReturn => "reached end of code without OP_RETURN"

end Fault

/-- The fault of a machine that meets bytes which are no instruction.  Behind the end of the code
    the return is missing. -/
def DecodeError.fault : DecodeError → Fault
  | .unknownOpcode byte _ => .unknownOpcode byte
  | .missingOperand op _ => .missingOperand op.mnemonic
  | .outOfBounds _ => .missingReturn

/-- A fault, with the offset and the line of the instruction at which it arose. -/
structure RuntimeError where
  fault : Fault
  offset : Nat
  line : Nat
deriving DecidableEq, Repr

/-- A fault at an offset of a chunk; a byte without a line counts as line zero. -/
def Fault.locate (fault : Fault) (c : Chunk) (offset : Nat) : RuntimeError :=
  ⟨fault, offset, (c.line? offset).getD 0⟩

namespace RuntimeError

/-- The error on two lines. -/
def describe (e : RuntimeError) : String :=
  e.fault.message ++ "\n[line " ++ toString e.line ++ "] in script"

end RuntimeError

end ArithVM
