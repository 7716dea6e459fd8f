import ArithVM.ErrorCode
import ArithVM.Token

/-!
# Compile errors

A compile error is a cause and the token at which it shows.  Its line and span are those of the
token, its code and wording those of the cause.
-/

namespace ArithVM

/-- What is wrong with a source. -/
inductive CompileError.Cause where
  /-- The token is no proper token. -/
  | lexical (error : LexError)
  /-- An operand is required and the token starts none. -/
  | expectedExpression
  /-- An operand is complete inside a parenthesis, and the token neither goes on nor closes it. -/
  | unclosedGroup
  /-- The expression is complete and the token is not the end. -/
  | trailingInput
  /-- The token is one number more than a chunk has room for. -/
  | tooManyConstants
  /-- An operand is required and one more level would be too many. -/
  | nestsTooDeeply
deriving DecidableEq, Repr

namespace CompileError.Cause

def code : CompileError.Cause → ErrorCode
  | .lexical .unexpectedCharacter => .unexpectedCharacter
  | .lexical .unterminatedString => .unterminatedString
  | .expectedExpression => .expectedExpression
  | .unclosedGroup => .unclosedGroup
  | .trailingInput => .trailingInput
  | .tooManyConstants => .tooManyConstants
  | .nestsTooDeeply => .nestsTooDeeply

def message : CompileError.Cause → String
  | .lexical error => error.message
  | .expectedExpression => "Expect expression."
  | .unclosedGroup => "Expect ')' after expression."
  | .trailingInput => "Expect end of expression."
  | .tooManyConstants => "Too many constants in one chunk."
  | .nestsTooDeeply => "Expression nests too deeply."

end CompileError.Cause

/-- How a message says where an error is. -/
inductive CompileError.Location where
  /-- By quoting a token. -/
  | lexeme (text : String)
  /-- At the end of the source. -/
  | atEnd
  /-- Not at all. -/
  | unlocated
deriving DecidableEq, Repr

namespace CompileError.Location

def text : CompileError.Location → String
  | .lexeme text => " at '" ++ text ++ "'"
  | .atEnd => " at end"
  | .unlocated => ""

end CompileError.Location

/-- A source that does not compile. -/
structure CompileError where
  cause : CompileError.Cause
  token : Token
deriving DecidableEq, Repr

namespace CompileError

def code (e : CompileError) : ErrorCode :=
  e.cause.code

def message (e : CompileError) : String :=
  e.cause.message

def line (e : CompileError) : Nat :=
  e.token.line

def span (e : CompileError) : Span :=
  e.token.span

/-- A proper token is quoted; of an improper one the message says enough. -/
def location (e : CompileError) : Location :=
  match e.token.kind with
  | .endOfInput => .atEnd
  | .invalid _ => .unlocated
  | _ => .lexeme e.token.text

/-- The error on one line. -/
def describe (e : CompileError) : String :=
  "[line " ++ toString e.line ++ "] Error" ++ e.location.text ++ ": " ++ e.message

end CompileError

end ArithVM
