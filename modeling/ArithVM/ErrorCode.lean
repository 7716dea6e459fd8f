/-!
# Error codes — stable names of everything that can go wrong

Each code has a one-line summary for listings and a full explanation.  The first letter says where
an error arises: `L` while scanning, `C` while compiling, `R` while running.
-/

namespace ArithVM

/-- The errors that a program can have. -/
inductive ErrorCode where
  | unexpectedCharacter | unterminatedString
  | expectedExpression | unclosedGroup | trailingInput | tooManyConstants | nestsTooDeeply
  | stackUnderflow | stackOverflow | unknownOpcode | malformedInstruction
deriving DecidableEq, Repr

namespace ErrorCode

/-- All codes, in the order of the listing. -/
def all : List ErrorCode :=
  [.unexpectedCharacter, .unterminatedString,
   .expectedExpression, .unclosedGroup, .trailingInput, .tooManyConstants, .nestsTooDeeply,
   .stackUnderflow, .stackOverflow, .unknownOpcode, .malformedInstruction]

/-- The written form of a code. -/
def text : ErrorCode → String
  | .unexpectedCharacter => "LOX-L001"
  | .unterminatedString => "LOX-L002"
  | .expectedExpression => "LOX-C001"
  | .unclosedGroup => "LOX-C002"
  | .trailingInput => "LOX-C003"
  | .tooManyConstants => "LOX-C004"
  | .nestsTooDeeply => "LOX-C005"
  | .stackUnderflow => "LOX-R001"
  | .stackOverflow => "LOX-R002"
  | .unknownOpcode => "LOX-R003"
  | .malformedInstruction => "LOX-R004"

/-- What a code means, in a few words. -/
def summary : ErrorCode → String
  | .unexpectedCharacter => "unexpected character"
  | .unterminatedString => "unterminated string"
  | .expectedExpression => "expected an expression"
  | .unclosedGroup => "unclosed parenthesis"
  | .trailingInput => "trailing input after expression"
  | .tooManyConstants => "too many constants in one chunk"
  | .nestsTooDeeply => "expression nests too deeply"
  | .stackUnderflow => "stack underflow"
  | .stackOverflow => "stack overflow"
  | .unknownOpcode => "unknown opcode"
  | .malformedInstruction => "malformed instruction"

/-- What a code means, in full. -/
def explanation : ErrorCode → String
  | .unexpectedCharacter => "## LOX-L001: unexpected character

A character was found that starts no token.

**Example:**

    1 + @

Only digits, letters, `_`, `\"` and the operators
`( ) \x7b \x7d , . - + ; / * ! != = == < <= > >=` can start a token.
"
  | .unterminatedString => "## LOX-L002: unterminated string

A string literal was opened with `\"` but input ended before the closing
quote. Strings may span lines, so a missing quote swallows everything after
it. The error is reported on the line where the string starts.

**Example:**

    \"abc
"
  | .expectedExpression => "## LOX-C001: expected an expression

An operand was required but the next token cannot start an expression.
Expressions are numbers, `-` followed by an expression, or a parenthesized
expression.

**Example:**

    1 +
"
  | .unclosedGroup => "## LOX-C002: unclosed parenthesis

A `(` was not matched by a `)` before the expression ended.

**Example:**

    (1 + 2
"
  | .trailingInput => "## LOX-C003: trailing input after expression

A source unit is exactly one expression. Anything after it is rejected.

**Example:**

    1 2
"
  | .tooManyConstants => "## LOX-C004: too many constants in one chunk

`OP_CONSTANT` addresses the constant pool with a single byte, so one chunk
holds at most 256 constants. Every number literal takes a slot; the 257th
literal is rejected rather than wrapping around to index 0.
"
  | .nestsTooDeeply => "## LOX-C005: expression nests too deeply

Parentheses, operators and unary minus together may nest at most 200
levels deep.
"
  | .stackUnderflow => "## LOX-R001: stack underflow

An instruction popped more operands than were on the stack. Compiled
expressions never do this; hand-built chunks can.
"
  | .stackOverflow => "## LOX-R002: stack overflow

The operand stack holds 256 values. Pushing a 257th aborts execution.
Compiled expressions stay within the limit because every pushed value
comes from its own constant; hand-built chunks can exceed it.
"
  | .unknownOpcode => "## LOX-R003: unknown opcode

The VM fetched a byte that is not a valid opcode. The chunk is corrupt or
was produced by an incompatible compiler.
"
  | .malformedInstruction => "## LOX-R004: malformed instruction

An instruction referenced data that is not there: an `OP_CONSTANT` missing
its operand byte, a constant index past the end of the pool, or code that
ends without `OP_RETURN`.
"

/-- The code that is written so, in capitals or small letters. -/
def ofText? (text : String) : Option ErrorCode :=
  all.find? fun code => code.text.toLower = text.toLower

theorem mem_all (code : ErrorCode) : code ∈ all := by
  cases code <;> decide +kernel

theorem ofText?_text (code : ErrorCode) : ofText? code.text = some code := by
  cases code <;> decide +kernel

end ErrorCode

end ArithVM
