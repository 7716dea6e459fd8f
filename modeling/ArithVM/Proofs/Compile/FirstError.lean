import ArithVM.Proofs.Compile.Place
import ArithVM.Proofs.Grammar.Viability

/-!
# The first error — where and why a source does not compile

The tokens before the one that is reported are viable.  A syntax error stands at the first token
that ends this, and its code says what the grammar asks for there.  An improper token is reported
before the token in front of it has been used, and the two limits are reported where one more
number or one more level would break them.
-/

namespace ArithVM

open Chunk Reading

/-- Behind these tokens the grammar requires an operand. -/
def RequiresOperand (ts : List Token) : Prop :=
  ∃ context, Opens context ts

/-- These tokens end with a complete operand inside of `n` open parentheses. -/
def CompletesOperand (n : Nat) (ts : List Token) : Prop :=
  ∃ context e, Completes context e ts ∧ context.groups = n

/-- What an error code says about the reported token `t` and the tokens before it. -/
def FirstError (before : List Token) (t : Token) (code : ErrorCode) : Prop :=
  match code with
  | .expectedExpression | .unclosedGroup | .trailingInput =>
    (∀ u ∈ before ++ [t], u.Proper) ∧ Viable before ∧ ¬ Viable (before ++ [t]) ∧
      (code = .expectedExpression ↔ RequiresOperand before) ∧
      (code = .unclosedGroup ↔ ∃ n, CompletesOperand (n + 1) before) ∧
      (code = .trailingInput ↔ CompletesOperand 0 before)
  | .unexpectedCharacter | .unterminatedString =>
    (∀ u ∈ before, u.Proper) ∧ Viable before.dropLast ∧
      ∃ error, t.kind = .invalid error ∧ code = (CompileError.Cause.lexical error).code
  | .tooManyConstants =>
    t.kind = .number ∧ (before.filter (·.kind = .number)).length = 256 ∧ Viable (before ++ [t])
  | .nestsTooDeeply =>
    Viable before ∧ ∃ context, Opens context before ∧ context.depth = 200
  | .stackUnderflow | .stackOverflow | .unknownOpcode | .malformedInstruction => False

/-! ## What may stand next -/

theorem requiresOperand_iff {ts : List Token} :
    RequiresOperand ts ↔ ∃ context, start.run ts = some (.operand context) := by
  rw [RequiresOperand]
  exact exists_congr fun context => run_start_eq_operand_iff.symm

theorem completesOperand_iff {n : Nat} {ts : List Token} :
    CompletesOperand n ts ↔
      ∃ context e, start.run ts = some (.operator context e) ∧ context.groups = n := by
  constructor
  · intro hcompletes
    rcases hcompletes with ⟨context, e, h, hgroups⟩
    rcases h.run_start with ⟨inner, last, hrun, hinner⟩
    exact ⟨inner, last, hrun, hinner.trans hgroups⟩
  · intro hreading
    rcases hreading with ⟨context, e, hrun, hgroups⟩
    exact ⟨context, e, completes_of_run_start hrun, hgroups⟩

/-- An operand is required exactly where a number may stand. -/
theorem requiresOperand_iff_viable {ts : List Token} :
    RequiresOperand ts ↔ ∃ t, t.kind = .number ∧ Viable (ts ++ [t]) := by
  rw [requiresOperand_iff]
  constructor
  · intro hreading
    rcases hreading with ⟨context, hrun⟩
    refine ⟨⟨.number, "0", ⟨0, 0⟩, 1⟩, rfl, ?_⟩
    exact viable_append_singleton_iff.2 ⟨_, _, hrun, .number rfl⟩
  · intro hnumber
    rcases hnumber with ⟨t, ht, hviable⟩
    rcases viable_append_singleton_iff.1 hviable with ⟨r, s, hrun, hmove⟩
    cases hmove with
    | number => exact ⟨_, hrun⟩
    | _ => simp_all [TokenKind.operator?]

/-- An operand is complete inside of a parenthesis exactly where one may be closed. -/
theorem completesOperand_succ_iff_viable {ts : List Token} :
    (∃ n, CompletesOperand (n + 1) ts) ↔
      ∃ t, t.kind = .symbol .rightParen ∧ Viable (ts ++ [t]) := by
  constructor
  · intro hcompletes
    rcases hcompletes with ⟨n, hcompletes⟩
    rcases completesOperand_iff.1 hcompletes with ⟨context, e, hrun, hgroups⟩
    have hopen : 0 < context.groups := by omega
    have hparen : TokenKind.operator? (.symbol .rightParen) = none := rfl
    rcases Context.close_eq_group hparen hopen e with ⟨outer, whole, hclose⟩
    refine ⟨⟨.symbol .rightParen, ")", ⟨0, 0⟩, 1⟩, rfl, ?_⟩
    exact viable_append_singleton_iff.2 ⟨_, _, hrun, .closing hclose rfl⟩
  · intro hclosing
    rcases hclosing with ⟨t, ht, hviable⟩
    rcases viable_append_singleton_iff.1 hviable with ⟨r, s, hrun, hmove⟩
    cases hmove with
    | @closing context outer e whole hclose =>
      refine ⟨outer.groups, completesOperand_iff.2 ⟨context, e, hrun, ?_⟩⟩
      rw [← Context.groups_close t.kind context e, hclose]
      rfl
    | _ => simp_all [TokenKind.operator?]

/-- An operand is complete outside of all parentheses exactly where the source may end. -/
theorem completesOperand_zero_iff_viable {ts : List Token} :
    CompletesOperand 0 ts ↔ ∃ t, t.kind = .endOfInput ∧ Viable (ts ++ [t]) := by
  constructor
  · intro hcompletes
    rcases completesOperand_iff.1 hcompletes with ⟨context, e, hrun, hgroups⟩
    have hfinish : TokenKind.operator? .endOfInput = none := rfl
    rcases Context.close_eq_program hfinish hgroups e with ⟨whole, hclose⟩
    refine ⟨⟨.endOfInput, "", ⟨0, 0⟩, 1⟩, rfl, ?_⟩
    exact viable_append_singleton_iff.2 ⟨_, _, hrun, .finish hclose rfl⟩
  · intro hend
    rcases hend with ⟨t, ht, hviable⟩
    rcases viable_append_singleton_iff.1 hviable with ⟨r, s, hrun, hmove⟩
    cases hmove with
    | @finish context e whole hclose =>
      refine completesOperand_iff.2 ⟨context, e, hrun, ?_⟩
      rw [← Context.groups_close t.kind context e, hclose]
      rfl
    | _ => simp_all [TokenKind.operator?]

/-! ## What a reading says about the place behind it -/

theorem requiresOperand_of_run {before : List Token} {context : Context}
    (hrun : start.run before = some (.operand context)) :
    RequiresOperand before ∧ ∀ n, ¬ CompletesOperand n before := by
  refine ⟨requiresOperand_iff.2 ⟨context, hrun⟩, fun n h => ?_⟩
  rcases completesOperand_iff.1 h with ⟨context', e, hrun', -⟩
  rw [hrun] at hrun'
  cases hrun'

theorem completesOperand_of_run {before : List Token} {context : Context} {e : Expr}
    (hrun : start.run before = some (.operator context e)) :
    ¬ RequiresOperand before ∧ ∀ n, CompletesOperand n before ↔ context.groups = n := by
  refine ⟨fun h => ?_, fun n => ?_⟩
  · rcases requiresOperand_iff.1 h with ⟨context', hrun'⟩
    rw [hrun] at hrun'
    cases hrun'
  · rw [completesOperand_iff]
    constructor
    · intro hreading
      rcases hreading with ⟨context', e', hrun', hgroups⟩
      rw [hrun] at hrun'
      cases hrun'
      exact hgroups
    · intro hgroups
      exact ⟨context, e, hrun, hgroups⟩

/-! ## From the verdict to the code -/

theorem firstError_of_refuses {before : List Token} {t : Token} {cause : CompileError.Cause}
    (hproper : ∀ u ∈ before, u.Proper) (h : Refuses before t cause) :
    FirstError before t cause.code := by
  have hall (ht : t.Proper) : ∀ u ∈ before ++ [t], u.Proper := by
    rw [List.forall_mem_append, List.forall_mem_singleton]
    exact ⟨hproper, ht⟩
  cases cause with
  | lexical error =>
    rcases h with ⟨hkind, hrun⟩
    have hviable : Viable before.dropLast := viable_iff_isSome_run.2 hrun
    cases error with
    | unexpectedCharacter => exact ⟨hproper, hviable, _, hkind, rfl⟩
    | unterminatedString => exact ⟨hproper, hviable, _, hkind, rfl⟩
  | expectedExpression =>
    rcases h with ⟨ht, context, hrun, hstep⟩
    rcases requiresOperand_of_run hrun with ⟨hrequires, hcompletes⟩
    refine ⟨hall ht, viable_of_run hrun, not_viable_of_step hrun hstep, ?_, ?_, ?_⟩
    · exact iff_of_true rfl hrequires
    · exact iff_of_false nofun fun ⟨n, hn⟩ => hcompletes (n + 1) hn
    · exact iff_of_false nofun (hcompletes 0)
  | unclosedGroup =>
    rcases h with ⟨ht, context, e, hrun, hstep, hopen⟩
    rcases completesOperand_of_run hrun with ⟨hrequires, hcompletes⟩
    refine ⟨hall ht, viable_of_run hrun, not_viable_of_step hrun hstep, ?_, ?_, ?_⟩
    · exact iff_of_false nofun hrequires
    · exact iff_of_true rfl ⟨context.groups - 1, (hcompletes _).2 (by omega)⟩
    · exact iff_of_false nofun fun h0 => by
        rw [hcompletes] at h0
        omega
  | trailingInput =>
    rcases h with ⟨ht, context, e, hrun, hstep, hclosed⟩
    rcases completesOperand_of_run hrun with ⟨hrequires, hcompletes⟩
    refine ⟨hall ht, viable_of_run hrun, not_viable_of_step hrun hstep, ?_, ?_, ?_⟩
    · exact iff_of_false nofun hrequires
    · exact iff_of_false nofun fun ⟨n, hn⟩ => by
        rw [hcompletes] at hn
        omega
    · exact iff_of_true rfl ((hcompletes 0).2 hclosed)
  | tooManyConstants =>
    -- The numbers that a reading has met are the constants that are taken.
    rcases h with ⟨hkind, context, hrun, hfull⟩
    refine ⟨hkind, ?_, ?_⟩
    · rw [← List.nil_append (before.filter _)]
      exact (congrArg List.length (numbers_of_run hrun)).symm.trans hfull
    · exact viable_of_run (run_concat hrun (Move.number hkind).step_eq)
  | nestsTooDeeply =>
    rcases h with ⟨-, context, hrun, hdepth⟩
    exact ⟨viable_of_run hrun, context, run_start_eq_operand_iff.1 hrun, hdepth⟩

theorem CompileError.Cause.code_injective : Function.Injective CompileError.Cause.code := by
  intro cause other h
  rcases cause with (_ | _) | _ | _ | _ | _ | _ <;>
    rcases other with (_ | _) | _ | _ | _ | _ | _ <;> first | rfl | contradiction

/-- **The first error.**  A source that does not compile is reported at one of its tokens, for the
    reason that the code gives.  The code fixes the message, and every number token has a value. -/
theorem firstError_of_compile {source : String} {error : CompileError}
    (h : Chunk.compile source = .error error) :
    (∃ before after, (Tokens.ofSource source).toList = before ++ error.token :: after ∧
      FirstError before error.token error.code) ∧
    (∀ other : CompileError, other.code = error.code → other.message = error.message) ∧
    ∀ t ∈ (Tokens.ofSource source).toList, t.kind = .number → IsNumeral t.text.toList := by
  refine ⟨?_, ?_, ?_⟩
  · have hverdict := verdict_of_source source
    rw [h] at hverdict
    cases hverdict with
    | @refused before rest t cause htokens hproper hrefuses =>
      exact ⟨before, rest, htokens, firstError_of_refuses hproper hrefuses⟩
  · intro other hcode
    exact congrArg CompileError.Cause.message (CompileError.Cause.code_injective hcode)
  · intro t ht hkind
    rw [Tokens.toList, List.mem_append, List.mem_singleton] at ht
    rcases ht with ht | rfl
    · exact Tokens.isNumeral_text ht hkind
    · rw [Tokens.kind_finish_ofSource] at hkind
      contradiction

/-- The end stands where the group should be closed. -/
theorem firstError_open_group :
    ∃ error, Chunk.compile "(1 + 2" = .error error ∧ error.code = .unclosedGroup ∧
      error.token.kind = .endOfInput ∧
      (∃ before after, (Tokens.ofSource "(1 + 2").toList = before ++ error.token :: after ∧
        FirstError before error.token error.code) ∧
      (∀ other : CompileError, other.code = error.code → other.message = error.message) ∧
      ∀ t ∈ (Tokens.ofSource "(1 + 2").toList, t.kind = .number → IsNumeral t.text.toList := by
  obtain ⟨error, h, hview⟩ : ∃ error, Chunk.compile "(1 + 2" = .error error ∧
      (error.code, error.token.kind) = (.unclosedGroup, .endOfInput) :=
    CompileError.exists_of_compile _ _ (by decide +kernel)
  obtain ⟨hcode, hkind⟩ := Prod.mk.inj hview
  exact ⟨error, h, hcode, hkind, firstError_of_compile h⟩

end ArithVM
