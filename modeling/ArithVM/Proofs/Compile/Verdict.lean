import ArithVM.Proofs.Compile.Simulation
import ArithVM.Proofs.Token.Sequence

/-!
# The verdict of the compiler

The compiler either accepts its tokens, and then the grammar reads them to a tree within both
limits and the chunk is that of the tree, or it refuses them at one token, and then the reading of
the tokens before says why.
-/

namespace ArithVM

open Chunk Reading

/-- A token that is no error of the scanner. -/
def Token.Proper (t : Token) : Prop :=
  t.kind.error? = none

theorem TokenKind.error?_eq_some_iff {kind : TokenKind} {error : LexError} :
    kind.error? = some error ↔ kind = .invalid error := by
  cases kind <;> simp [TokenKind.error?]

namespace Chunk

theorem checkNext_eq (ts : List Token) :
    (checkNext ts = .ok () ∧ ∀ t ∈ ts.head?, t.Proper) ∨
      ∃ t rest error, ts = t :: rest ∧ t.kind = .invalid error ∧
        checkNext ts = .error ⟨.lexical error, t⟩ := by
  cases ts with
  | nil => exact .inl ⟨rfl, by simp⟩
  | cons t rest =>
    cases herror : t.kind.error? with
    | none =>
      refine .inl ⟨by simp only [checkNext, herror], ?_⟩
      intro u hu
      rw [List.head?_cons, Option.mem_some] at hu
      rw [← hu]
      exact herror
    | some error =>
      refine .inr ⟨t, rest, error, rfl, TokenKind.error?_eq_some_iff.1 herror, ?_⟩
      simp only [checkNext, herror]

end Chunk

namespace Reading

/-- The reading has come about within the limits. -/
def Within : Reading → Prop
  | .operand context =>
    context.level ≤ maxLevels ∧ context.depth ≤ maxLevels ∧
      context.numbers.length ≤ maxConstants
  | .operator context e =>
    (operator context e).level ≤ maxLevels ∧ (operator context e).numbers.length ≤ maxConstants
  | .finished e => e.level ≤ maxLevels ∧ e.numbers.length ≤ maxConstants

/-- A step from an operand stays within the limits if there was room for one more level and is room
    for the numbers. -/
theorem Within.step_operand {context : Context} {r : Reading} {t : Token}
    (h : (operand context).Within) (hdepth : context.depth < maxLevels)
    (hstep : (operand context).step t = some r) (hroom : r.numbers.length ≤ maxConstants) :
    r.Within := by
  rcases h with ⟨hlevel, -, hnumbers⟩
  cases move_of_step hstep with
  | number =>
    refine ⟨?_, hroom⟩
    simp only [Reading.level, Expr.level]
    omega
  | group => exact ⟨hlevel, hdepth, hnumbers⟩
  | negation => exact ⟨hlevel, hdepth, hnumbers⟩

theorem Within.step_operator {context : Context} {e : Expr} {r : Reading} {t : Token}
    (h : (operator context e).Within) (hstep : (operator context e).step t = some r) :
    r.Within := by
  rcases h with ⟨hlevel, hnumbers⟩
  have hpos := e.level_pos
  simp only [Reading.level] at hlevel
  simp only [Reading.numbers] at hnumbers
  -- Closing phrases changes neither the levels nor the numbers, and it only loses depth.
  cases move_of_step hstep with
  | operand hclose =>
    have hlevel' := Context.level_close hclose
    have hnumbers' := Context.numbers_close hclose
    have hdepth := Context.depth_close_le hclose
    refine ⟨?_, ?_, ?_⟩
    · simp only [Context.level]
      omega
    · simp only [Context.depth]
      omega
    · rw [Context.numbers, hnumbers']
      exact hnumbers
  | closing hclose =>
    have hlevel' := Context.level_close hclose
    have hnumbers' := Context.numbers_close hclose
    simp only [Context.level, Context.depth, Context.numbers] at hlevel' hnumbers'
    refine ⟨?_, ?_⟩
    · simp only [Reading.level, Expr.level]
      omega
    · rw [Reading.numbers, Expr.numbers, hnumbers']
      exact hnumbers
  | finish hclose =>
    have hlevel' := Context.level_close hclose
    have hnumbers' := Context.numbers_close hclose
    simp only [Context.level, Context.depth, Context.numbers, List.nil_append] at hlevel' hnumbers'
    refine ⟨by omega, ?_⟩
    rw [hnumbers']
    exact hnumbers

end Reading

/-- Why the token `t` is refused behind the tokens `before`. -/
def Refuses (before : List Token) (t : Token) : CompileError.Cause → Prop
  | .lexical error => t.kind = .invalid error ∧ (start.run before.dropLast).isSome
  | .expectedExpression =>
    t.Proper ∧ ∃ context, start.run before = some (.operand context) ∧
      (operand context).step t = none
  | .unclosedGroup =>
    t.Proper ∧ ∃ context e, start.run before = some (.operator context e) ∧
      (operator context e).step t = none ∧ 0 < context.groups
  | .trailingInput =>
    t.Proper ∧ ∃ context e, start.run before = some (.operator context e) ∧
      (operator context e).step t = none ∧ context.groups = 0
  | .tooManyConstants =>
    t.kind = .number ∧ ∃ context, start.run before = some (.operand context) ∧
      context.numbers.length = maxConstants
  | .nestsTooDeeply =>
    t.Proper ∧ ∃ context, start.run before = some (.operand context) ∧ context.depth = maxLevels

/-- A token is improper exactly if it is refused for that. -/
theorem Refuses.kind_eq_invalid_iff {before : List Token} {t : Token}
    {cause : CompileError.Cause} (h : Refuses before t cause) {error : LexError} :
    t.kind = .invalid error ↔ cause = .lexical error := by
  have hproper (ht : t.Proper) (hcause : ∀ error, cause ≠ .lexical error) :
      t.kind = .invalid error ↔ cause = .lexical error := by
    refine iff_of_false (fun hkind => ?_) (hcause error)
    rw [Token.Proper, hkind] at ht
    contradiction
  cases cause with
  | lexical other => rw [h.1, TokenKind.invalid.injEq, CompileError.Cause.lexical.injEq]
  | expectedExpression => exact hproper h.1 nofun
  | unclosedGroup => exact hproper h.1 nofun
  | trailingInput => exact hproper h.1 nofun
  | tooManyConstants =>
    have ht : t.Proper := by rw [Token.Proper, h.1]; rfl
    exact hproper ht nofun
  | nestsTooDeeply => exact hproper h.1 nofun

theorem refuses_lacking {before : List Token} {t : Token} {context : Context} {e : Expr}
    (ht : t.Proper) (hrun : start.run before = some (.operator context e))
    (hstep : (operator context e).step t = none) : Refuses before t (lacking context) := by
  rw [lacking]
  split
  next hopen => exact ⟨ht, context, e, hrun, hstep, hopen⟩
  next hclosed => exact ⟨ht, context, e, hrun, hstep, Nat.eq_zero_of_not_pos hclosed⟩

theorem refuses_tooManyConstants {before : List Token} {t : Token} {context : Context}
    {r : Reading} (hnumbers : context.numbers.length ≤ maxConstants)
    (hrun : start.run before = some (.operand context))
    (hstep : (operand context).step t = some r) (hfull : maxConstants < r.numbers.length) :
    Refuses before t .tooManyConstants := by
  rw [numbers_of_step hstep, List.length_append] at hfull
  by_cases ht : t.kind = .number
  · rw [List.filter_singleton, decide_eq_true ht] at hfull
    exact ⟨ht, context, hrun, Nat.le_antisymm hnumbers (Nat.le_of_lt_succ hfull)⟩
  · rw [List.filter_singleton, decide_eq_false ht] at hfull
    exact absurd hnumbers (Nat.not_le.2 hfull)

/-- What comes of all tokens of a source, the end among them. -/
inductive Verdict (finish : Token) (tokens : List Token) : Except CompileError Chunk → Prop where
  | accepted {e : Expr} (hrun : start.run tokens = some (.finished e))
    (hwithin : (finished e).Within) : Verdict finish tokens (.ok (e.chunk finish.line))
  | refused {before rest : List Token} {t : Token} {cause : CompileError.Cause}
    (htokens : tokens = before ++ t :: rest) (hproper : ∀ u ∈ before, u.Proper)
    (hrefuses : Refuses before t cause) : Verdict finish tokens (.error ⟨cause, t⟩)

/-- An improper token is refused while the token before it, which is proper, waits to be used. -/
theorem Verdict.checkNext {finish t : Token} {before rest : List Token} {r : Reading}
    {result : Except CompileError Chunk} (hrun : start.run before = some r)
    (hproper : ∀ u ∈ before ++ [t], u.Proper)
    (h : (∀ u ∈ rest.head?, u.Proper) → Verdict finish (before ++ t :: rest ++ [finish]) result) :
    Verdict finish (before ++ t :: rest ++ [finish])
      (Chunk.checkNext rest >>= fun _ => result) := by
  rcases Chunk.checkNext_eq rest with ⟨hok, hhead⟩ | ⟨u, rest', error, rfl, hu, herror⟩
  · rw [hok]
    exact h hhead
  · rw [herror]
    have htokens : before ++ t :: u :: rest' ++ [finish] =
        (before ++ [t]) ++ u :: (rest' ++ [finish]) := by simp
    refine .refused htokens hproper ⟨hu, ?_⟩
    rw [List.dropLast_concat, hrun]
    rfl

theorem verdict_at_end {finish : Token} (hfinish : finish.kind = .endOfInput)
    {before : List Token} {r : Reading} (hrun : start.run before = some r) (hwithin : r.Within)
    (hopen : ∀ e, r ≠ .finished e) (hproper : ∀ u ∈ before, u.Proper) :
    Verdict finish (before ++ [finish]) (r.compile finish []) := by
  have hfinal : finish.Proper := by
    rw [Token.Proper, hfinish]
    rfl
  cases r with
  | operand context =>
    rw [compile_operand_nil]
    split
    next hdepth =>
      exact .refused rfl hproper ⟨hfinal, context, hrun, Nat.le_antisymm hwithin.2.1 hdepth⟩
    next =>
      have hstep : (operand context).step finish = none := by simp only [step, hfinish]
      exact .refused rfl hproper ⟨hfinal, context, hrun, hstep⟩
  | operator context e =>
    rw [compile_operator_nil hfinish]
    cases hstep : (operator context e).step finish with
    | none => exact .refused rfl hproper (refuses_lacking hfinal hrun hstep)
    | some r =>
      have hrun' : start.run (before ++ [finish]) = some r := run_concat hrun hstep
      have hwithin' := hwithin.step_operator hstep
      cases move_of_step hstep with
      | operand _ ht => rw [hfinish] at ht; contradiction
      | closing _ ht => rw [hfinish] at ht; contradiction
      | finish => exact .accepted hrun' hwithin'
  | finished e => exact absurd rfl (hopen e)

/-- One token: it is refused, or the verdict is that of the reading behind it. -/
theorem verdict_at_token {finish t : Token} {before rest : List Token} {r : Reading}
    (htend : t.kind ≠ .endOfInput) (hrun : start.run before = some r) (hwithin : r.Within)
    (hopen : ∀ e, r ≠ .finished e) (hproper : ∀ u ∈ before ++ [t], u.Proper)
    (hnext : ∀ r', r.step t = some r' → r'.Within → (∀ u ∈ rest.head?, u.Proper) →
      Verdict finish (before ++ t :: rest ++ [finish]) (r'.compile finish rest)) :
    Verdict finish (before ++ t :: rest ++ [finish]) (r.compile finish (t :: rest)) := by
  have hbefore : ∀ u ∈ before, u.Proper :=
    fun u hu => hproper u (List.mem_append_left [t] hu)
  have ht : t.Proper := hproper t (List.mem_append_right before List.mem_cons_self)
  have htokens : before ++ t :: rest ++ [finish] = before ++ t :: (rest ++ [finish]) := by
    rw [List.append_assoc, List.cons_append]
  cases r with
  | operand context =>
    -- The depth is looked at first, then the token behind `t`, and `t` itself last.
    rw [compile_operand_cons hwithin.2.2]
    split
    next hdepth =>
      exact .refused htokens hbefore
        ⟨ht, context, hrun, Nat.le_antisymm hwithin.2.1 hdepth⟩
    next hdepth =>
      apply Verdict.checkNext hrun hproper
      intro hhead
      cases hstep : (operand context).step t with
      | none => exact .refused htokens hbefore ⟨ht, context, hrun, hstep⟩
      | some r' =>
        by_cases hfull : maxConstants < r'.numbers.length
        · simp only [if_pos hfull]
          exact .refused htokens hbefore
            (refuses_tooManyConstants hwithin.2.2 hrun hstep hfull)
        · simp only [if_neg hfull]
          have hwithin' := hwithin.step_operand (Nat.lt_of_not_le hdepth) hstep
            (Nat.le_of_not_lt hfull)
          exact hnext r' hstep hwithin' hhead
  | operator context e =>
    rw [compile_operator_cons htend]
    cases hstep : (operator context e).step t with
    | none => exact .refused htokens hbefore (refuses_lacking ht hrun hstep)
    | some r' =>
      apply Verdict.checkNext hrun hproper
      intro hhead
      exact hnext r' hstep (hwithin.step_operator hstep) hhead
  | finished e => exact absurd rfl (hopen e)

/-- **The compiler's verdict**, from any reading that is within the limits and any proper tokens
    behind it. -/
theorem verdict_compile {finish : Token} (hfinish : finish.kind = .endOfInput) {ts : List Token}
    (hts : ∀ t ∈ ts, t.kind ≠ .endOfInput) {before : List Token} {r : Reading}
    (hrun : start.run before = some r) (hwithin : r.Within) (hopen : ∀ e, r ≠ .finished e)
    (hproper : ∀ u ∈ before, u.Proper) (hhead : ∀ t ∈ ts.head?, t.Proper) :
    Verdict finish (before ++ ts ++ [finish]) (r.compile finish ts) := by
  -- The induction is on the tokens that are left; only the next of them is known to be proper.
  induction ts generalizing before r with
  | nil =>
    rw [List.append_nil]
    exact verdict_at_end hfinish hrun hwithin hopen hproper
  | cons t rest ih =>
    have ht : t.Proper := hhead t rfl
    have htend : t.kind ≠ .endOfInput := hts t List.mem_cons_self
    have hrest : ∀ u ∈ rest, u.kind ≠ .endOfInput :=
      fun u hu => hts u (List.mem_cons_of_mem t hu)
    have hproper' : ∀ u ∈ before ++ [t], u.Proper := by
      rw [List.forall_mem_append, List.forall_mem_singleton]
      exact ⟨hproper, ht⟩
    apply verdict_at_token htend hrun hwithin hopen hproper'
    intro r' hstep hwithin' hhead'
    have hopen' : ∀ e, r' ≠ .finished e := by
      intro e heq
      rw [heq] at hstep
      cases move_of_step hstep with
      | finish _ hend => exact htend hend
    have hverdict := ih hrest (run_concat hrun hstep) hwithin' hopen' hproper' hhead'
    rwa [List.append_assoc before, List.singleton_append] at hverdict

theorem verdict_of_source (source : String) :
    Verdict (Tokens.ofSource source).finish (Tokens.ofSource source).toList
      (Chunk.compile source) := by
  have hfinish := Tokens.kind_finish_ofSource source
  have hcompile : Chunk.compile source = Chunk.checkNext (Tokens.ofSource source).body >>= fun _ =>
      start.compile (Tokens.ofSource source).finish (Tokens.ofSource source).body := rfl
  rw [hcompile, Tokens.toList]
  rcases Chunk.checkNext_eq (Tokens.ofSource source).body with
    ⟨hok, hhead⟩ | ⟨t, rest, error, hbody, ht, herror⟩
  · have hwithin : start.Within := ⟨Nat.zero_le _, Nat.zero_le _, Nat.zero_le _⟩
    have hrun : start.run [] = some start := rfl
    rw [hok]
    exact verdict_compile hfinish (fun t ht => Tokens.kind_ne_endOfInput ht) hrun hwithin
      (fun e => nofun) (by simp) hhead
  · have htokens : t :: rest ++ [(Tokens.ofSource source).finish] =
        [] ++ t :: (rest ++ [(Tokens.ofSource source).finish]) := rfl
    rw [herror, hbody]
    exact .refused htokens (by simp) ⟨ht, rfl⟩

end ArithVM
