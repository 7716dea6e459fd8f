import ArithVM.Json
import ArithVM.LineTable
import ArithVM.Report
import ArithVM.Token

/-!
# Reports and tokens as data

For other programs a report is a JSON object on one line, its keys in alphabetical order and parts
that are missing left out.  A list of tokens is an array of objects.
-/

namespace ArithVM

namespace Label

/-- A label as data.  Its line and column are known only together with the source. -/
def toJson (source? : Option String) (label : Label) : Json :=
  let position? := source?.map fun source => (LineTable.ofSource source).position label.span.start
  .present
    [("col", position?.map fun position => .number position.column),
     ("end", some (.number label.span.stop)),
     ("line", position?.map fun position => .number position.line),
     ("message", some (.string label.message)),
     ("start", some (.number label.span.start))]

end Label

namespace Report

/-- A report as data.  The source itself is not part of it. -/
def toJson (r : Report) : Json :=
  .present
    [("code", r.code?.map .string),
     ("label", r.label?.map (Label.toJson r.source?)),
     ("line", r.line?.map .number),
     ("message", some (.string r.message)),
     ("notes", some (.array (r.notes.map .string))),
     ("severity", some (.string "error")),
     ("suggestion", r.suggestion?.map .string)]

end Report

namespace Token

def toJson (t : Token) : Json :=
  .object
    [("kind", .string t.kind.name),
     ("lexeme", .string t.lexeme),
     ("span", .object [("start", .number t.span.start), ("end", .number t.span.stop)]),
     ("line", .number t.line)]

/-- A list of tokens as an array. -/
def listToJson (tokens : List Token) : Json :=
  .array (tokens.map toJson)

end Token

end ArithVM
