/-!
# Padding — columns of fixed width and trimmed ends

A column pads its text with blanks up to a width and never cuts a longer text.
-/

namespace ArithVM.Text

/-- `count` copies of one character. -/
def fill (count : Nat) (c : Char) : String :=
  String.ofList (List.replicate count c)

/-- Right-aligns a text in a column, filling it up with `c` on the left. -/
def padLeft (width : Nat) (c : Char) (text : String) : String :=
  fill (width - text.length) c ++ text

/-- Left-aligns a text in a column of blanks. -/
def padRight (width : Nat) (text : String) : String :=
  text ++ fill (width - text.length) ' '

/-- Removes every character at the end of the text that satisfies `p`. -/
def dropTrailing (p : Char → Bool) (text : List Char) : List Char :=
  (text.reverse.dropWhile p).reverse

end ArithVM.Text
