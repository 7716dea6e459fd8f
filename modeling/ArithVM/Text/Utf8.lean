/-!
# UTF-8 input — bytes read as text, whole or line by line

Input arrives as bytes.  `decode?` reads them as text and refuses anything that is not UTF-8.
`splitLines` cuts them at line feeds before they are read, so that one bad line does not spoil the
lines in front of it.
-/

namespace ArithVM.Text

/-- The text that the bytes encode in UTF-8, if they do encode one. -/
def decode? (bytes : List UInt8) : Option String :=
  String.fromUTF8? ⟨bytes.toArray⟩

/-- The lines of some input, each with the line feed that ends it; the last one may lack it. -/
def splitLines : List UInt8 → List (List UInt8)
  | [] => []
  | byte :: bytes =>
    if byte = 10 then
      [byte] :: splitLines bytes
    else
      match splitLines bytes with
      | [] => [[byte]]
      | line :: lines => (byte :: line) :: lines

end ArithVM.Text
