import ArithVM.Chunk
import ArithVM.CompileError
import ArithVM.Precedence
import ArithVM.Token.Lossless
import ArithVM.Value.Literal

/-!
# Compiling — an expression as a chunk

A source is one expression and nothing after it.  Code is emitted while the tokens go by, one at a
time.  What is still open is a stack of levels, from the innermost parenthesis, minus sign or right
operand out to the whole program.  A token that does not continue the innermost level closes it,
and its instruction is emitted then.  The first error ends the compilation.
-/

namespace ArithVM

/-- The levels that are open at a place in a source, the innermost first. -/
inductive Levels where
  /-- The whole source. -/
  | program
  /-- The inside of a parenthesis. -/
  | group (outer : Levels)
  /-- The operand of a minus sign on some line. -/
  | negation (line : Nat) (outer : Levels)
  /-- The right operand of an operation whose sign stands on some line. -/
  | operand (op : Operator) (line : Nat) (outer : Levels)
deriving DecidableEq

namespace Levels

/-- How many levels are open. -/
def depth : Levels → Nat
  | .program => 1
  | .group outer => outer.depth + 1
  | .negation _ outer => outer.depth + 1
  | .operand _ _ outer => outer.depth + 1

/-- The loosest operation that continues the innermost level.  A right operand binds one degree
    tighter than its operation, so operations of one precedence associate to the left. -/
def precedence : Levels → Precedence
  | .program => .term
  | .group _ => .term
  | .negation .. => .unary
  | .operand op .. => op.precedence.tighter

/-- The operation by which a token continues the innermost level. -/
def continuation? (levels : Levels) (kind : TokenKind) : Option Operator :=
  kind.operator?.filter fun op => levels.precedence.rank ≤ op.precedence.rank

/-- Closes the levels that a token after a complete operand does not continue, and emits their
    instructions.  A parenthesis and the program are closed by their own tokens only. -/
def close (kind : TokenKind) : Levels → Chunk → Levels × Chunk
  | .negation line outer, chunk =>
    if ((negation line outer).continuation? kind).isSome then (.negation line outer, chunk)
    else close kind outer (chunk.writeOp .negate line)
  | .operand op line outer, chunk =>
    if ((operand op line outer).continuation? kind).isSome then (.operand op line outer, chunk)
    else close kind outer (chunk.writeOp (.operator op) line)
  | levels, chunk => (levels, chunk)

end Levels

namespace Chunk

/-- The greatest number of levels that may be open at once. -/
def maxLevels : Nat := 200

/-- What the grammar asks for at a place in a source. -/
inductive Expecting where
  /-- The first token of an operand. -/
  | operand
  /-- An operation, or the end of a level. -/
  | operator
deriving DecidableEq, Repr

/-- Refuses an improper token that comes next. -/
def checkNext (tokens : List Token) : Except CompileError Unit :=
  match tokens with
  | [] => .ok ()
  | t :: _ =>
    match t.kind.error? with
    | none => .ok ()
    | some error => .error ⟨.lexical error, t⟩

/-- Appends the instruction that pushes the value of a number token. -/
def writeNumber (c : Chunk) (t : Token) : Except CompileError Chunk :=
  match c.writeConstant (Value.ofLiteral t.text) t.line with
  | .ok (_, c) => .ok c
  | .error .tooManyConstants => .error ⟨.tooManyConstants, t⟩

/-- Compiles the tokens that are left, given the levels that are open and the code so far.  A token
    is taken only if the one behind it is proper; that is found out before anything is made of the
    token itself. -/
def compileTokens (finish : Token) :
    Expecting → Levels → Chunk → List Token → Except CompileError Chunk
  | .operand, levels, _, [] =>
    if maxLevels < levels.depth then .error ⟨.nestsTooDeeply, finish⟩
    else .error ⟨.expectedExpression, finish⟩
  | .operand, levels, chunk, t :: rest =>
    -- Room for one more level is asked for before the token is looked at.
    if maxLevels < levels.depth then .error ⟨.nestsTooDeeply, t⟩
    else do
      checkNext rest
      match t.kind with
      | .number =>
        let chunk ← chunk.writeNumber t
        compileTokens finish .operator levels chunk rest
      | .symbol .leftParen =>
        compileTokens finish .operand (.group levels) chunk rest
      | .symbol .minus =>
        compileTokens finish .operand (.negation t.line levels) chunk rest
      | _ => .error ⟨.expectedExpression, t⟩
  | .operator, levels, chunk, [] =>
    match levels.close finish.kind chunk with
    | (.program, chunk) => .ok (chunk.writeOp .ret finish.line)
    | _ => .error ⟨.unclosedGroup, finish⟩
  | .operator, levels, chunk, t :: rest =>
    let (levels, chunk) := levels.close t.kind chunk
    match levels.continuation? t.kind with
    | some op => do
      checkNext rest
      compileTokens finish .operand (.operand op t.line levels) chunk rest
    | none =>
      -- Only a group or the program is left open by `close` without a continuation.
      match levels with
      | .group outer =>
        if t.kind = .symbol .rightParen then do
          checkNext rest
          compileTokens finish .operator outer chunk rest
        else
          .error ⟨.unclosedGroup, t⟩
      | _ => .error ⟨.trailingInput, t⟩

/-- Compiles a source. -/
def compile (source : String) : Except CompileError Chunk := do
  let tokens := Tokens.ofSource source
  checkNext tokens.body
  compileTokens tokens.finish .operand .program .empty tokens.body

end Chunk

end ArithVM
