import ArithVM.CompileError
import ArithVM.Fault
import ArithVM.Text.Padding

/-!
# Reports — what a user is told about an error

A report is independent of how it is shown.  It always has a message; everything else, from the code
to the source with the place that is meant, may be missing.
-/

namespace ArithVM

/-- A place in a source with a remark. -/
structure Label where
  span : Span
  message : String
deriving DecidableEq, Repr

/-- An error report. -/
structure Report where
  message : String
  code? : Option String := none
  /-- The line of the error, counted from one. -/
  line? : Option Nat := none
  label? : Option Label := none
  notes : List String := []
  suggestion? : Option String := none
  /-- The text that line and label refer to. -/
  source? : Option String := none
deriving DecidableEq, Repr

namespace Report

/-- A report with nothing but a message. -/
def error (message : String) : Report :=
  { message }

def withCode (r : Report) (code : String) : Report :=
  { r with code? := some code }

def withLine (r : Report) (line : Nat) : Report :=
  { r with line? := some line }

def withLabel (r : Report) (span : Span) (message : String) : Report :=
  { r with label? := some ⟨span, message⟩ }

/-- Adds a note behind those that are there. -/
def withNote (r : Report) (note : String) : Report :=
  { r with notes := r.notes ++ [note] }

def withSuggestion (r : Report) (suggestion : String) : Report :=
  { r with suggestion? := some suggestion }

def withSource (r : Report) (source : String) : Report :=
  { r with source? := some source }

end Report

namespace CompileError

/-- The remark at the place of the error. -/
def remark (e : CompileError) : String :=
  match e.location with
  | .lexeme text => "found '" ++ text ++ "'"
  | .atEnd => "input ends here"
  | .unlocated => "here"

/-- What could mend the source. -/
def suggestion? (e : CompileError) : Option String :=
  match e.cause with
  | .lexical .unterminatedString => some "add the closing '\"'"
  | .unclosedGroup => some "add ')' to close the group"
  | _ => none

/-- What there is to know besides. -/
def notes (e : CompileError) : List String :=
  match e.cause with
  | .tooManyConstants => ["a chunk holds at most 256 constants"]
  | _ => []

/-- The report of a compile error, yet without its source. -/
def report (e : CompileError) : Report where
  message := e.message
  code? := some e.code.text
  line? := some e.line
  label? := some ⟨e.span, e.remark⟩
  notes := e.notes
  suggestion? := e.suggestion?

end CompileError

/-- The report of a runtime error, yet without its source.  It has a line but no label, for chunks
    know nothing finer than lines. -/
def RuntimeError.report (e : RuntimeError) : Report where
  message := e.fault.message
  code? := some e.fault.code.text
  line? := some e.line
  notes := ["while executing the instruction at offset "
    ++ Text.padLeft 4 '0' (toString e.offset)]

end ArithVM
