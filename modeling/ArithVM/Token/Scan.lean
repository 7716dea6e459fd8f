import ArithVM.Text.Slice
import ArithVM.Token

/-!
# Scanning — a source as a sequence of tokens

`Lexeme.first?` takes the longest token off the front of a text, `splitTrivia` the blanks and
comments before it.  A `Cursor` joins the two: it knows what is left of the source and how many
bytes and line feeds lie behind it, so each token is placed without looking back.  At the end of the
source the cursor stays where it is and answers with the end token as often as it is asked.
-/

namespace ArithVM

/-- The characters that separate tokens. -/
def isSeparator (c : Char) : Bool :=
  c = ' ' || c = '\t' || c = '\r' || c = '\n'

/-- Digits are the ten of ASCII. -/
def isDigit (c : Char) : Bool :=
  '0' ≤ c && c ≤ '9'

/-- A word begins with an ASCII letter or an underscore. -/
def isWordStart (c : Char) : Bool :=
  ('a' ≤ c && c ≤ 'z') || ('A' ≤ c && c ≤ 'Z') || c = '_'

/-- A word goes on with letters, underscores and digits. -/
def isWordPart (c : Char) : Bool :=
  isWordStart c || isDigit c

/-- Splits a text after the blanks and comments at its front.  A comment begins with two slashes
    and ends before the next line feed. -/
def splitTrivia : List Char → List Char × List Char
  | [] => ([], [])
  | '/' :: '/' :: cs =>
    let (more, rest) := splitTrivia (cs.dropWhile (· ≠ '\n'))
    ('/' :: '/' :: cs.takeWhile (· ≠ '\n') ++ more, rest)
  | c :: cs =>
    if isSeparator c then
      let (more, rest) := splitTrivia cs
      (c :: more, rest)
    else
      ([], c :: cs)
termination_by cs => cs.length
decreasing_by
  all_goals simp only [List.length_cons]
  · have := (List.dropWhile_suffix (p := (· ≠ '\n')) (l := cs)).length_le
    omega
  · omega

/-- A token's kind and text, taken off the front of a text, and what follows it. -/
structure Lexeme where
  kind : TokenKind
  text : List Char
  rest : List Char
deriving DecidableEq

namespace Lexeme

/-- The word at the front of a text, reserved or not. -/
def word (cs : List Char) : Lexeme :=
  let text := cs.takeWhile isWordPart
  let kind := match Keyword.ofText? (String.ofList text) with
    | some word => .keyword word
    | none => .identifier
  ⟨kind, text, cs.dropWhile isWordPart⟩

/-- The number at the front of a text.  A point belongs to it only if a digit follows. -/
def number (cs : List Char) : Lexeme :=
  let whole := cs.takeWhile isDigit
  match cs.dropWhile isDigit with
  | '.' :: d :: rest =>
    if isDigit d then
      ⟨.number, whole ++ '.' :: (d :: rest).takeWhile isDigit, (d :: rest).dropWhile isDigit⟩
    else
      ⟨.number, whole, '.' :: d :: rest⟩
  | rest => ⟨.number, whole, rest⟩

/-- The string whose opening quote stands before `cs`.  It runs to the next quote, over line feeds
    too, or, without one, to the end of the source. -/
def string (cs : List Char) : Lexeme :=
  let body := cs.takeWhile (· ≠ '"')
  match cs.dropWhile (· ≠ '"') with
  | quote :: rest => ⟨.string, '"' :: body ++ [quote], rest⟩
  | [] => ⟨.invalid .unterminatedString, '"' :: body, []⟩

/-- The longest token at the front of a text; `none` if the text is empty. -/
def first? : List Char → Option Lexeme
  | [] => none
  | c :: cs =>
    if isWordStart c then
      some (word (c :: cs))
    else if isDigit c then
      some (number (c :: cs))
    else if c = '"' then
      some (string cs)
    else
      match Symbol.leading? (c :: cs) with
      | some s => some ⟨.symbol s, s.text.toList, (c :: cs).drop s.text.length⟩
      | none => some ⟨.invalid .unexpectedCharacter, [c], cs⟩

end Lexeme

/-- A place in a source. -/
structure Cursor where
  /-- The text from here on. -/
  rest : List Char
  /-- The bytes before this place. -/
  offset : Nat
  /-- The line of this place, counted from one. -/
  line : Nat
deriving DecidableEq

namespace Cursor

/-- The beginning of a source. -/
def start (source : String) : Cursor :=
  ⟨source.toList, 0, 1⟩

/-- The place behind `text`, given what is left there. -/
def pass (c : Cursor) (text rest : List Char) : Cursor :=
  ⟨rest, c.offset + Text.byteLength text, c.line + text.count '\n'⟩

/-- The place behind the blanks and comments that begin here. -/
def skipTrivia (c : Cursor) : Cursor :=
  let (trivia, rest) := splitTrivia c.rest
  c.pass trivia rest

/-- The next token, and the place behind it. -/
def scan (c : Cursor) : Token × Cursor :=
  let here := c.skipTrivia
  match Lexeme.first? here.rest with
  | none => (⟨.endOfInput, "", ⟨here.offset, here.offset⟩, here.line⟩, here)
  | some lexeme =>
    let behind := here.pass lexeme.text lexeme.rest
    (⟨lexeme.kind, String.ofList lexeme.text, ⟨here.offset, behind.offset⟩, here.line⟩, behind)

end Cursor

end ArithVM
