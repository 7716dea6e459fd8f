import ArithVM.Instruction
import ArithVM.Pool

/-!
# Chunks — code with its line table and constants

A chunk holds code as bytes, the source line of each byte, and the constants that the code refers
to.  An operand is one byte, so a chunk takes no more than 256 constants; when the pool is full an
addition fails and changes nothing.
-/

namespace ArithVM

/-- Code, the lines it comes from, and its constants. -/
structure Chunk where
  code : Array UInt8 := #[]
  /-- `lines[i]` is the line that `code[i]` comes from. -/
  lines : Array Nat := #[]
  constants : Pool := {}

/-- Why a chunk refuses to grow. -/
inductive ChunkError where
  | tooManyConstants
deriving DecidableEq, Repr

namespace ChunkError

def message : ChunkError → String
  | .tooManyConstants => "too many constants in one chunk (limit 256)"

end ChunkError

namespace Chunk

/-- The chunk without code. -/
def empty : Chunk := {}

/-- The greatest number of constants that a one-byte operand can address. -/
def maxConstants : Nat := 256

def size (c : Chunk) : Nat :=
  c.code.size

/-- Whether there is no code, whatever else the chunk may hold. -/
def isEmpty (c : Chunk) : Bool :=
  c.code.isEmpty

/-- The line of the byte at `offset`. -/
def line? (c : Chunk) (offset : Nat) : Option Nat :=
  c.lines[offset]?

/-- Appends a byte that comes from `line`. -/
def write (c : Chunk) (byte : UInt8) (line : Nat) : Chunk :=
  { c with code := c.code.push byte, lines := c.lines.push line }

/-- Appends an opcode. -/
def writeOp (c : Chunk) (op : Opcode) (line : Nat) : Chunk :=
  c.write op.byte line

/-- Adds a constant, and tells its position. -/
def addConstant (c : Chunk) (v : Value) : Except ChunkError (UInt8 × Chunk) :=
  if c.constants.size < maxConstants then
    .ok (UInt8.ofNat c.constants.size, { c with constants := c.constants.push v })
  else
    .error .tooManyConstants

/-- Adds a constant together with the instruction that pushes it. -/
def writeConstant (c : Chunk) (v : Value) (line : Nat) : Except ChunkError (UInt8 × Chunk) :=
  match c.addConstant v with
  | .ok (index, c) => .ok (index, (c.writeOp .constant line).write index line)
  | .error e => .error e

/-- Whether two chunks agree in code, lines and constants.  Constants are compared as numbers, so
    zeros of either sign agree and a NaN agrees with nothing. -/
def agrees (a b : Chunk) : Bool :=
  a.code == b.code && a.lines == b.lines
    && a.constants.values.isEqv b.constants.values fun v w => v == w

end Chunk

end ArithVM
