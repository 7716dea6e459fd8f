import ArithVM.Token.Scan

/-!
# Scanners — tokens on demand

A scanner hands out the tokens of a source one by one, in either of two ways that may be mixed.
`scan` always has an answer and repeats the end token.  `next?` stops after it has answered with the
end token itself; an end token out of `scan` does not stop it.
-/

namespace ArithVM

/-- A place in a source, and whether the sequence of tokens has been handed out to its end. -/
structure Scanner where
  cursor : Cursor
  ended : Bool := false
deriving DecidableEq

namespace Scanner

/-- A scanner at the beginning of a source. -/
def new (source : String) : Scanner :=
  { cursor := .start source }

/-- The next token; at the end, the end token. -/
def scan (s : Scanner) : Token × Scanner :=
  let (t, cursor) := s.cursor.scan
  (t, { s with cursor })

/-- The next token of the sequence that closes with the end token. -/
def next? (s : Scanner) : Option Token × Scanner :=
  if s.ended then
    (none, s)
  else
    let (t, s) := s.scan
    (some t, { s with ended := decide (t.kind = .endOfInput) })

end Scanner

end ArithVM
