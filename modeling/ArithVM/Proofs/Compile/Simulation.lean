import ArithVM.Chunk.Compile
import ArithVM.Proofs.Chunk.Assembly
import ArithVM.Proofs.Grammar.Nesting

/-!
# Compiling follows the reading

The compiler keeps of a reading only the levels that are open; everything else is code already.
`Reading.compile` is the compiler started in the state that belongs to a reading, and it is
described by four equations, one for each kind of place and for a token or none ahead: a token is
refused where the grammar refuses it or where a limit is reached, and otherwise the compiler goes
on in the state that belongs to the next reading.
-/

namespace ArithVM

def Token.value (t : Token) : Value :=
  Value.ofLiteral t.text

/-- The chunk of an expression whose end stands on the line `last`. -/
def Expr.chunk (e : Expr) (last : Nat) : Chunk :=
  .assemble (e.postorder 0 ++ [(.ret, last)]) (e.numbers.map Token.value)

theorem Expr.holds_chunk (e : Expr) (last : Nat) :
    (e.chunk last).constants.Holds 0 (e.numbers.map Token.value) := by
  have hpool : (e.chunk last).constants.values.toList = [] ++ e.numbers.map Token.value := rfl
  exact Pool.holds_of_values_eq hpool

/-! ## The state that belongs to a reading -/

namespace Context

def levels : Context → Levels
  | .program => .program
  | .group outer => .group outer.levels
  | .negation sign outer => .negation sign.line outer.levels
  | .operand op sign _ outer => .operand op sign.line outer.levels

/-- The code of the finished left operands. -/
def code : Context → List (Instruction × Nat)
  | .program => []
  | .group outer => outer.code
  | .negation _ outer => outer.code
  | .operand _ _ left outer => outer.code ++ left.postorder outer.numbers.length

theorem depth_levels (context : Context) : context.levels.depth = context.depth + 1 := by
  induction context with
  | program => rfl
  | group outer ih => rw [levels, Levels.depth, ih, depth]
  | negation sign outer ih => rw [levels, Levels.depth, ih, depth]
  | operand op sign left outer ih => rw [levels, Levels.depth, ih, depth]

theorem continuation?_levels (context : Context) (kind : TokenKind) :
    context.levels.continuation? kind = context.continuation? kind := by
  cases context <;> rfl

end Context

namespace Reading

open Chunk

def code : Reading → List (Instruction × Nat)
  | .operand context => context.code
  | .operator context e => context.code ++ e.postorder context.numbers.length
  | .finished e => e.postorder 0

def chunk (r : Reading) : Chunk :=
  .assemble r.code (r.numbers.map Token.value)

/-- Compiles the tokens behind a reading. -/
def compile (finish : Token) : Reading → List Token → Except CompileError Chunk
  | .operand context, ts =>
    compileTokens finish .operand context.levels (operand context).chunk ts
  | .operator context e, ts =>
    compileTokens finish .operator context.levels (operator context e).chunk ts
  | .finished e, _ => .ok (e.chunk finish.line)

/-- Closing levels emits the code of the phrases that end. -/
theorem close_levels (kind : TokenKind) (context : Context) (e : Expr) :
    context.levels.close kind (operator context e).chunk =
      ((context.close kind e).1.levels,
        (operator (context.close kind e).1 (context.close kind e).2).chunk) := by
  induction context generalizing e with
  | program => rfl
  | group => rfl
  | negation sign outer ih =>
    -- Nothing continues a negated operand, so its instruction is written at once.
    have hnone := (Context.negation sign outer).continuation?_levels kind
    rw [Context.continuation?_negation] at hnone
    have hwrite : (operator (.negation sign outer) e).chunk.writeOp .negate sign.line =
        (operator outer (.negate sign e)).chunk := by
      rw [chunk, writeOp_assemble .negate .negate rfl rfl]
      simp only [chunk, code, numbers, Context.code, Context.numbers, Expr.postorder,
        Expr.numbers, List.append_assoc]
    rw [Context.levels, Levels.close, ← Context.levels, hnone, if_neg (by simp), hwrite, ih,
      Context.close]
  | operand op sign left outer ih =>
    have heq := (Context.operand op sign left outer).continuation?_levels kind
    have hwrite :
        (operator (.operand op sign left outer) e).chunk.writeOp (.operator op) sign.line =
          (operator outer (.binary op sign left e)).chunk := by
      rw [chunk, writeOp_assemble (.operator op) (.operator op) rfl rfl]
      simp only [chunk, code, numbers, Context.code, Context.numbers, Expr.postorder,
        Expr.numbers, List.append_assoc, List.length_append]
    rw [Context.levels, Levels.close, ← Context.levels, heq, Context.close]
    split
    · rfl
    · rw [hwrite, ih]

/-! ## The four equations -/

theorem compile_operand_nil (finish : Token) (context : Context) :
    (operand context).compile finish [] =
      if maxLevels ≤ context.depth then .error ⟨.nestsTooDeeply, finish⟩
      else .error ⟨.expectedExpression, finish⟩ := by
  rw [compile, compileTokens, context.depth_levels]
  simp only [Nat.lt_succ_iff]

theorem writeNumber_operand {t : Token} (context : Context) :
    (operand context).chunk.writeNumber t =
      if maxConstants < (operator context (.number t)).numbers.length then
        .error ⟨.tooManyConstants, t⟩
      else .ok (operator context (.number t)).chunk := by
  have hlength : (operator context (.number t)).numbers.length = context.numbers.length + 1 := by
    rw [numbers, Expr.numbers, List.length_append, List.length_singleton]
  have hvalues : (context.numbers.map Token.value).length = context.numbers.length :=
    List.length_map ..
  rw [hlength, writeNumber, chunk]
  by_cases hroom : context.numbers.length < maxConstants
  · rw [if_neg (by omega), numbers, writeConstant_assemble (by rw [hvalues]; exact hroom)]
    simp only [chunk, code, numbers, Expr.postorder, Expr.numbers, List.map_append, hvalues]
    rfl
  · rw [if_pos (by omega), numbers, writeConstant_assemble_full (by rw [hvalues]; omega)]

theorem compile_operand_cons {context : Context}
    (hnumbers : context.numbers.length ≤ maxConstants) (finish t : Token) (rest : List Token) :
    (operand context).compile finish (t :: rest) =
      if maxLevels ≤ context.depth then .error ⟨.nestsTooDeeply, t⟩
      else
        checkNext rest >>= fun _ =>
          match (operand context).step t with
          | none => .error ⟨.expectedExpression, t⟩
          | some r =>
            if maxConstants < r.numbers.length then .error ⟨.tooManyConstants, t⟩
            else r.compile finish rest := by
  rw [compile, compileTokens, context.depth_levels]
  simp only [Nat.lt_succ_iff]
  split
  · rfl
  · congr 1
    funext _
    split
    next ht =>
      rw [(Move.number ht).step_eq, writeNumber_operand]
      by_cases hfull : maxConstants < (operator context (.number t)).numbers.length
      · simp only [if_pos hfull]
        rfl
      · simp only [if_neg hfull]
        rfl
    next ht =>
      rw [(Move.group ht).step_eq]
      exact (if_neg (Nat.not_lt.2 hnumbers)).symm
    next ht =>
      rw [(Move.negation ht).step_eq]
      exact (if_neg (Nat.not_lt.2 hnumbers)).symm
    next hnumber hgroup hminus =>
      -- No other token starts an operand.
      have hstep : (operand context).step t = none := by
        rw [step]
        split
        next ht => exact absurd ht hnumber
        next ht => exact absurd ht hgroup
        next ht => exact absurd ht hminus
        next => rfl
      rw [hstep]

/-- What a complete operand lacks where no token continues it. -/
def lacking (context : Context) : CompileError.Cause :=
  if 0 < context.groups then .unclosedGroup else .trailingInput

theorem compile_operator_nil {finish : Token} (hfinish : finish.kind = .endOfInput)
    (context : Context) (e : Expr) :
    (operator context e).compile finish [] =
      match (operator context e).step finish with
      | none => .error ⟨lacking context, finish⟩
      | some r => r.compile finish [] := by
  have hoperator : finish.kind.operator? = none := by rw [hfinish]; rfl
  rw [compile, compileTokens, close_levels, lacking]
  by_cases hopen : 0 < context.groups
  · rcases Context.close_eq_group hoperator hopen e with ⟨outer, whole, hclose⟩
    have hstep : (operator context e).step finish = none := by
      simp only [step, hclose]
      rw [hfinish]
      rfl
    rw [hclose, hstep, if_pos hopen]
    rfl
  · rcases Context.close_eq_program hoperator (Nat.eq_zero_of_not_pos hopen) e with ⟨whole, hclose⟩
    have hwrite : (operator .program whole).chunk.writeOp .ret finish.line =
        whole.chunk finish.line := by
      rw [chunk, writeOp_assemble .ret .ret rfl rfl]
      rfl
    rw [hclose, (Move.finish hclose hfinish).step_eq]
    exact congrArg Except.ok hwrite

theorem compile_operator_cons {t : Token} (ht : t.kind ≠ .endOfInput) (context : Context)
    (e : Expr) (finish : Token) (rest : List Token) :
    (operator context e).compile finish (t :: rest) =
      match (operator context e).step t with
      | none => .error ⟨lacking context, t⟩
      | some r => checkNext rest >>= fun _ => r.compile finish rest := by
  rw [compile, compileTokens, close_levels]
  have hgroups := Context.groups_close t.kind context e
  cases hclose : context.close t.kind e with
  | mk closed whole =>
    rw [hclose] at hgroups
    simp only [Context.continuation?_levels]
    cases hop : closed.continuation? t.kind with
    | some op =>
      rcases Context.continuation?_eq_some_iff.1 hop with ⟨hsign, hrank⟩
      rw [(Move.operand hclose hsign hrank).step_eq]
      rfl
    | none =>
      -- What is left open is the program or a group, and only its own token closes it.
      have hnone : (context.close t.kind e).1.continuation? t.kind = none := by
        rw [hclose]
        exact hop
      have hshape := Context.close_of_continuation?_eq_none hnone
      rw [hclose] at hshape
      rcases hshape with rfl | ⟨outer, rfl⟩
      · have hstep : (operator context e).step t = none := by
          simp only [step, hclose, hop]
          split
          next h _ => contradiction
          next h => exact absurd h ht
          next => rfl
        rw [hstep, lacking, ← hgroups]
        rfl
      · by_cases hparen : t.kind = .symbol .rightParen
        · rw [(Move.closing hclose hparen).step_eq]
          exact if_pos hparen
        · have hstep : (operator context e).step t = none := by
            simp only [step, hclose, hop]
            split
            next h => exact absurd h hparen
            next h _ => contradiction
            next => rfl
          have hopen : 0 < (Context.group outer).groups := Nat.succ_pos _
          rw [hstep, lacking, ← hgroups, if_pos hopen]
          exact if_neg hparen

end Reading

end ArithVM
