import ArithVM.Chunk.Decode
import ArithVM.Text.Padding
import ArithVM.Token.Lossless
import ArithVM.Value.Text

/-!
# Listings — chunks, stacks and tokens made readable

A chunk is listed with one row per instruction:

    == code ==
    0000    1 OP_CONSTANT         0 '1.2'
    0002    | OP_NEGATE
    0003    2 OP_RETURN

A bar stands for the line of the byte before, a question mark for a line that is not known.
Malformed code is listed like any other: an unknown byte has a row of its own, and an operand that
is missing ends the listing.
-/

namespace ArithVM

open Text

/-- One row of a chunk listing, without its line feed, and the offset that the next row is for. -/
structure Row where
  text : String
  next : Nat
deriving DecidableEq, Repr

namespace Chunk

/-- The line column of the row for `offset`. -/
def lineColumn (c : Chunk) (offset : Nat) : String :=
  match c.line? offset with
  | none => "   ? "
  | some line =>
    if 0 < offset ∧ c.line? (offset - 1) = some line then "   | "
    else padLeft 4 ' ' (toString line) ++ " "

/-- What a row shows of a constant. -/
def constantText (c : Chunk) (index : UInt8) : String :=
  match c.constants.get? index.toNat with
  | some v => "'" ++ v.text ++ "'"
  | none => "<no such constant>"

/-- The row for the instruction at `offset`, if that lies inside the code. -/
def row? (c : Chunk) (offset : Nat) : Option Row :=
  let columns := padLeft 4 '0' (toString offset) ++ " " ++ c.lineColumn offset
  match c.decode offset with
  | .ok (.constant index) =>
    some ⟨columns ++ padRight 16 Opcode.constant.mnemonic ++ " "
        ++ padLeft 4 ' ' (toString index.toNat) ++ " " ++ c.constantText index,
      offset + 2⟩
  | .ok i => some ⟨columns ++ i.opcode.mnemonic, offset + 1⟩
  | .error (.unknownOpcode byte _) =>
    some ⟨columns ++ "Unknown opcode " ++ toString byte.toNat, offset + 1⟩
  | .error (.missingOperand op _) =>
    some ⟨columns ++ padRight 16 op.mnemonic ++ " <missing operand>", c.size⟩
  | .error (.outOfBounds _) => none

theorem lt_of_row?_eq_some {c : Chunk} {offset : Nat} {row : Row} (h : c.row? offset = some row) :
    offset < c.size ∧ offset < row.next := by
  have hsize : offset < c.size := by
    rcases Nat.lt_or_ge offset c.size with hlt | hge
    · exact hlt
    · simp [row?, decode, Array.getElem?_eq_none hge] at h
  refine ⟨hsize, ?_⟩
  unfold row? at h
  split at h <;> simp only [Option.some.injEq, reduceCtorEq] at h <;> subst h <;> simp_all

/-- The line of a listing for `offset` and the offset that the next one is for.  Outside of the code
    there is no line, and no way forward. -/
def disassembleAt (c : Chunk) (offset : Nat) : String × Nat :=
  match c.row? offset with
  | some row => (row.text ++ "\n", row.next)
  | none => ("", offset)

/-- The rows from `offset` to the end of the code. -/
def rowsFrom (c : Chunk) (offset : Nat) : List Row :=
  match _ : c.row? offset with
  | some row => row :: rowsFrom c row.next
  | none => []
termination_by c.size - offset
decreasing_by
  have := lt_of_row?_eq_some ‹c.row? offset = some row›
  omega

/-- A chunk under a heading with its name. -/
def listing (c : Chunk) (name : String) : String :=
  "== " ++ name ++ " ==\n" ++ String.join ((c.rowsFrom 0).map fun row => row.text ++ "\n")

end Chunk

namespace Value

/-- The values of a stack in one line, the topmost last. -/
def stackText (values : List Value) : String :=
  fill 10 ' ' ++ String.join (values.map fun v => "[ " ++ v.text ++ " ]")

end Value

namespace Token

/-- The row of a token.  Its line is left out if the row above is for the same line. -/
def rowText (above? : Option Nat) (t : Token) : String :=
  (if above? = some t.line then "   | " else padLeft 4 ' ' (toString t.line) ++ " ")
    ++ padRight 13 t.kind.name ++ " '" ++ t.lexeme ++ "'"

/-- One row per token, given the line of the row above the first. -/
def rows (above? : Option Nat) : List Token → List String
  | [] => []
  | t :: ts => t.rowText above? :: rows (some t.line) ts

/-- The tokens of a source as a table. -/
def table (source : String) : String :=
  String.join ((rows none (Tokens.ofSource source).toList).map (· ++ "\n"))

end Token

end ArithVM
