import ArithVM.Text.Padding
import ArithVM.Text.Slice

/-!
# Line tables — lines and columns of byte offsets

A line begins at the start of the source and behind every line feed.  The table of these offsets
turns an offset into a line and a column, both counted from one, and a line number into the text
that stands there.
-/

namespace ArithVM

open Text

/-- The offsets at which the lines of a source begin, in ascending order. -/
structure LineTable where
  starts : List Nat
deriving DecidableEq, Repr

/-- A place in a source as a reader counts it: the line, and the byte within the line, from one. -/
structure Position where
  line : Nat
  column : Nat
deriving DecidableEq, Repr

namespace LineTable

/-- The offsets behind the line feeds of a text that begins at `offset`. -/
def startsAfter : Nat → List Char → List Nat
  | _, [] => []
  | offset, c :: cs =>
    let behind := offset + c.utf8Size
    if c = '\n' then behind :: startsAfter behind cs else startsAfter behind cs

/-- The table of a source. -/
def ofSource (source : String) : LineTable :=
  ⟨0 :: startsAfter 0 source.toList⟩

/-- The offset at which a line begins. -/
def start? (table : LineTable) (line : Nat) : Option Nat :=
  if line = 0 then none else table.starts[line - 1]?

/-- The place of an offset: the last line that begins at or before it, which for an offset past the
    end of the source is the last line of all. -/
def position (table : LineTable) (offset : Nat) : Position :=
  let line := (table.starts.takeWhile (· ≤ offset)).length
  ⟨line, offset - (table.start? line).getD 0 + 1⟩

/-- The text of a line without the line feed that ends it, and without carriage returns before
    that.  The table may belong to another source; where it does not fit, the text is empty. -/
def lineText (table : LineTable) (source : String) (line : Nat) : String :=
  let text := do
    let start ← table.start? line
    let stop := table.starts[line]?.getD source.utf8ByteSize
    let text ← slice? source.toList start stop
    return String.ofList (dropTrailing (· = '\r') (dropTrailing (· = '\n') text))
  text.getD ""

end LineTable

end ArithVM
