/-!
# Blank text — the Unicode property `White_Space`

A line of input with nothing but white space on it holds no expression.  White space here is
Unicode's property of that name, not the four characters that separate tokens.
-/

namespace ArithVM.Text

/-- The ranges of code points that have the property `White_Space`, in ascending order. -/
def whiteSpaceRanges : List (Nat × Nat) :=
  [(0x9, 0xD), (0x20, 0x20), (0x85, 0x85), (0xA0, 0xA0), (0x1680, 0x1680), (0x2000, 0x200A),
   (0x2028, 0x2029), (0x202F, 0x202F), (0x205F, 0x205F), (0x3000, 0x3000)]

/-- Whether a character has the property `White_Space`. -/
def isWhiteSpace (c : Char) : Bool :=
  whiteSpaceRanges.any fun range => range.1 ≤ c.toNat && c.toNat ≤ range.2

/-- Whether a text is empty or all white space. -/
def isBlank (text : String) : Bool :=
  text.toList.all isWhiteSpace

end ArithVM.Text
