import ArithVM.LineTable
import ArithVM.Report

/-!
# Reports on a terminal

A report is laid out as rows of painted pieces: the message, an arrow to the place, the line of the
source with carets under the label, the notes and the suggestion.  Colour is decided last: with it
each style wraps its piece in escape sequences, without it the pieces stand bare.
-/

namespace ArithVM

open Text

/-- The ways to set off a piece of text. -/
inductive Style where
  | bold | boldRed | cyan | dim
deriving DecidableEq, Repr

/-- The parameters of the escape sequence that turns a style on. -/
def Style.parameters : Style → String
  | .bold => "1"
  | .boldRed => "1;31"
  | .cyan => "36"
  | .dim => "2"

/-- A piece of text in one style, or in none. -/
structure Piece where
  style? : Option Style := none
  text : String
deriving DecidableEq, Repr

namespace Piece

def plain (text : String) : Piece :=
  { text }

def painted (style : Style) (text : String) : Piece :=
  { style? := some style, text }

/-- A style is turned on before its piece and off behind it. -/
def render (coloured : Bool) (piece : Piece) : String :=
  match coloured, piece.style? with
  | true, some style => "\x1b[" ++ style.parameters ++ "m" ++ piece.text ++ "\x1b[0m"
  | _, _ => piece.text

end Piece

namespace Report

/-- The first row: the code, if there is one, and the message. -/
def heading (r : Report) : List Piece :=
  let head := match r.code? with
    | some code => "error[" ++ code ++ "]"
    | none => "error"
  [.painted .boldRed head, .plain ": ", .painted .bold r.message]

/-- The row that points to a place. -/
def arrow (place : String) : List Piece :=
  [.plain "  ", .painted .cyan "-->", .plain (" " ++ place)]

/-- The bar between the line numbers and the source. -/
def bar : Piece :=
  .painted .cyan "|"

/-- A line of the source between two empty rows, with a marker under it if there is one.  The bars
    stand below each other, as far to the right as the line number needs. -/
def snippet (text : String) (line : Nat) (marker? : Option (List Piece)) : List (List Piece) :=
  let number := toString line
  let gutter := Piece.plain (fill number.length ' ' ++ " ")
  [[gutter, bar],
   [.painted .cyan number, .plain " ", bar, .plain (" " ++ text)]]
    ++ (marker?.map fun marker => gutter :: bar :: .plain " " :: marker).toList
    ++ [[gutter, bar]]

/-- Where the carets under a line begin and how many there are, in characters, for a line with this
    text that begins at byte `lineStart`.  The label is cut to the line.  Bytes are counted instead
    of characters where it begins inside a character, and there is always one caret. -/
def caretRange (span : Span) (lineStart : Nat) (text : List Char) : Nat × Nat :=
  let size := byteLength text
  let start := min (span.start - lineStart) size
  let stop := min (max (span.stop - lineStart) start) size
  ((slice? text 0 start).elim start List.length,
   max 1 ((slice? text start stop).elim 1 List.length))

/-- The carets under a line, and the remark behind them. -/
def marker (label : Label) (lineStart : Nat) (text : String) : List Piece :=
  let (indent, width) := caretRange label.span lineStart text.toList
  .plain (fill indent ' ') :: .painted .boldRed (fill width '^')
    :: if label.message = "" then [] else [.plain " ", .painted .boldRed label.message]

/-- The rows that show the place: as much of arrow, line and carets as source, label and line
    allow. -/
def placeRows (r : Report) : List (List Piece) :=
  match r.source?, r.label?, r.line? with
  | some source, some label, _ =>
    let table := LineTable.ofSource source
    let position := table.position label.span.start
    let text := table.lineText source position.line
    let lineStart := (table.start? position.line).getD 0
    arrow (toString position.line ++ ":" ++ toString position.column)
      :: snippet text position.line (some (marker label lineStart text))
  | some source, none, some line =>
    arrow ("line " ++ toString line)
      :: snippet ((LineTable.ofSource source).lineText source line) line none
  | none, _, some line => [arrow ("line " ++ toString line)]
  | _, _, none => []

/-- A row below the snippet. -/
def remarkRow (kind text : String) : List Piece :=
  [.plain "  ", .painted .dim "=", .plain (" " ++ kind ++ ": " ++ text)]

/-- All rows of a report. -/
def rows (r : Report) : List (List Piece) :=
  r.heading :: r.placeRows ++ r.notes.map (remarkRow "note")
    ++ (r.suggestion?.map (remarkRow "suggestion")).toList

/-- The text of a report, each row ended by a line feed. -/
def render (coloured : Bool) (r : Report) : String :=
  String.join (r.rows.map fun row => String.join (row.map (Piece.render coloured)) ++ "\n")

end Report

end ArithVM
