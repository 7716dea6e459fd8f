import ArithVM.Proofs.Compile.Verdict
import ArithVM.Proofs.Grammar.Repetition
import ArithVM.Proofs.Grammar.Viability

/-!
# Acceptance — the sources that compile

A source compiles exactly if its tokens are a sentence whose tree has no more than 200 levels and
256 numbers, and the chunk is then that of the tree.  A chain of operations is not nested however
long it is, so its length is limited by the constants alone.
-/

namespace ArithVM

open Chunk Reading

theorem Derives.proper {p : Precedence} {e : Expr} {ts : List Token} (h : Derives p e ts) :
    ∀ t ∈ ts, t.Proper := by
  have hop {t : Token} {op : Operator} (ht : t.kind.operator? = some op) : t.Proper := by
    cases herror : t.kind.error? with
    | none => exact herror
    | some error =>
      rw [TokenKind.error?_eq_some_iff.1 herror] at ht
      contradiction
  have hkind {t : Token} {s : Symbol} (ht : t.kind = .symbol s) : t.Proper := by
    rw [Token.Proper, ht]
    rfl
  induction h with
  | number ht =>
    simp only [List.mem_singleton, forall_eq]
    rw [Token.Proper, ht]
    rfl
  | group hopening hclosing _ ih =>
    simp only [List.cons_append, List.forall_mem_cons, List.forall_mem_append, List.mem_singleton,
      forall_eq]
    exact ⟨hkind hopening, ih, hkind hclosing⟩
  | negate hsign _ ih =>
    rw [List.forall_mem_cons]
    exact ⟨hkind hsign, ih⟩
  | binary hsign _ _ ihleft ihright =>
    rw [List.forall_mem_append, List.forall_mem_cons]
    exact ⟨ihleft, hop hsign, ihright⟩
  | ofUnary _ ih => exact ih
  | ofFactor _ ih => exact ih

theorem not_refuses {before rest : List Token} {t : Token} {cause : CompileError.Cause} {e : Expr}
    (hrun : start.run (before ++ t :: rest) = some (.finished e)) (hwithin : (finished e).Within)
    (ht : t.Proper) : ¬ Refuses before t cause := by
  rcases hwithin with ⟨hlevel, hnumbers⟩
  have hstuck {r : Reading} (hbefore : start.run before = some r) : r.step t ≠ none := by
    intro hstep
    rw [run_append_of_eq_some hbefore, run_cons, hstep] at hrun
    contradiction
  cases cause with
  | lexical error =>
    intro hrefuses
    rcases hrefuses with ⟨hkind, -⟩
    rw [Token.Proper, hkind] at ht
    contradiction
  | expectedExpression =>
    intro hrefuses
    rcases hrefuses with ⟨-, context, hbefore, hstep⟩
    exact hstuck hbefore hstep
  | unclosedGroup =>
    intro hrefuses
    rcases hrefuses with ⟨-, context, last, hbefore, hstep, -⟩
    exact hstuck hbefore hstep
  | trailingInput =>
    intro hrefuses
    rcases hrefuses with ⟨-, context, last, hbefore, hstep, -⟩
    exact hstuck hbefore hstep
  | tooManyConstants =>
    intro hrefuses
    rcases hrefuses with ⟨hkind, context, hbefore, hfull⟩
    rw [run_append_of_eq_some hbefore] at hrun
    have hlength := congrArg List.length (numbers_of_run hrun)
    rw [List.filter_cons_of_pos (by rw [hkind]; rfl), List.length_append,
      List.length_cons] at hlength
    simp only [Reading.numbers] at hlength
    omega
  | nestsTooDeeply =>
    intro hrefuses
    rcases hrefuses with ⟨-, context, hbefore, hdepth⟩
    rw [run_append_of_eq_some hbefore] at hrun
    have hle := level_le_of_run hrun
    simp only [Reading.level] at hle
    omega

/-- **Sources that compile**, and their chunks. -/
theorem compile_eq_ok_iff {source : String} {c : Chunk} :
    Chunk.compile source = .ok c ↔
      ∃ e, Derives .term e (Tokens.ofSource source).body ∧ e.level ≤ maxLevels ∧
        e.numbers.length ≤ maxConstants ∧ c = e.chunk (Tokens.ofSource source).finish.line := by
  have hfinish := Tokens.kind_finish_ofSource source
  have hverdict := verdict_of_source source
  constructor
  · intro h
    rw [h] at hverdict
    cases hverdict with
    | @accepted e hrun hwithin =>
      rcases follows_of_run hrun with ⟨us, finish, htokens, -, he⟩
      rcases List.append_inj' htokens rfl with ⟨rfl, -⟩
      exact ⟨e, he, hwithin.1, hwithin.2, rfl⟩
  · intro htree
    rcases htree with ⟨e, he, hlevel, hnumbers, rfl⟩
    have hrun := he.run_start hfinish
    -- A refusal would contradict that the whole sentence can be read.
    generalize Chunk.compile source = result at hverdict
    cases hverdict with
    | accepted hrun' hwithin =>
      rw [Tokens.toList, hrun] at hrun'
      cases hrun'
      rfl
    | @refused before rest t cause htokens hproper hrefuses =>
      rw [← Tokens.toList, htokens] at hrun
      have ht : t.Proper := by
        have hmem : t ∈ (Tokens.ofSource source).toList := by
          rw [htokens]
          exact List.mem_append_right _ List.mem_cons_self
        rw [Tokens.toList, List.mem_append, List.mem_singleton] at hmem
        rcases hmem with hmem | rfl
        · exact he.proper t hmem
        · rw [Token.Proper, hfinish]
          rfl
      exact absurd hrefuses (not_refuses hrun ⟨hlevel, hnumbers⟩ ht)

/-! ## Chains of operations -/

/-- Operands joined by operations of both precedences in any order; no operand has more than `n`
    levels. -/
inductive Chain (n : Nat) : List Token → Prop where
  | operand {e : Expr} {ts : List Token} (he : Derives .unary e ts) (hlevel : e.level ≤ n) :
    Chain n ts
  | operation {op : Operator} {e : Expr} {sign : Token} {ts us : List Token}
    (hchain : Chain n ts) (hsign : sign.kind.operator? = some op) (he : Derives .unary e us)
    (hlevel : e.level ≤ n) : Chain n (ts ++ sign :: us)

/-- A product, or a sum that ends with a product; only that product may still grow. -/
inductive Summation (n : Nat) : List Token → Prop where
  | product {e : Expr} {ts : List Token} (he : Derives .factor e ts) (hlevel : e.level ≤ n + 1) :
    Summation n ts
  | sum {op : Operator} {sign : Token} {left right : Expr} {ls rs : List Token}
    (hop : op.precedence = .term) (hsign : sign.kind.operator? = some op)
    (hleft : Derives .term left ls) (hlevel : left.level ≤ n + 2)
    (hright : Derives .factor right rs) (hlevel' : right.level ≤ n + 1) :
    Summation n (ls ++ sign :: rs)

theorem Summation.exists_derives {n : Nat} {ts : List Token} (h : Summation n ts) :
    ∃ e, Derives .term e ts ∧ e.level ≤ n + 2 := by
  cases h with
  | product he hlevel => exact ⟨_, .ofFactor he, Nat.le_succ_of_le hlevel⟩
  | sum hop hsign hleft hlevel hright hlevel' =>
    refine ⟨_, .binary_of_precedence hop hsign hleft hright, ?_⟩
    rw [Expr.level]
    omega

theorem Chain.summation {n : Nat} {ts : List Token} (h : Chain n ts) : Summation n ts := by
  induction h with
  | operand he hlevel => exact .product (.ofUnary he) (Nat.le_succ_of_le hlevel)
  | @operation op e sign ts us _ hsign he hlevel ih =>
    cases hop : op.precedence with
    | term =>
      -- The whole chain so far becomes the left operand.
      rcases ih.exists_derives with ⟨left, hleft, hle⟩
      exact .sum hop hsign hleft hle (.ofUnary he) (Nat.le_succ_of_le hlevel)
    | factor =>
      cases ih with
      | product hleft hle =>
        refine .product (.binary_of_precedence hop hsign hleft he) ?_
        rw [Expr.level]
        omega
      | sum hop' hsign' hleft hle hright hle' =>
        rw [List.append_assoc, List.cons_append]
        refine .sum hop' hsign' hleft hle (.binary_of_precedence hop hsign hright he) ?_
        rw [Expr.level]
        omega
    | unary =>
      have hlt := op.rank_precedence_lt_unary
      rw [hop] at hlt
      exact absurd hlt (Nat.lt_irrefl _)

/-- **Acceptance.**  A source compiles exactly if its tokens are proper and form a sentence within
    the two limits.  Of a chain whose operands have up to 198 levels the number of operands does
    not matter, only the number of constants does. -/
theorem exists_compile_eq_ok_iff (source : String) :
    ((∃ c, Chunk.compile source = .ok c) ↔
      (∀ t ∈ (Tokens.ofSource source).toList, t.Proper) ∧
        ∃ e, Derives .term e (Tokens.ofSource source).body ∧ e.numbers.length ≤ 256 ∧
          e.level ≤ 200) ∧
    ∀ n ≤ 198, Chain n (Tokens.ofSource source).body →
      ((∃ c, Chunk.compile source = .ok c) ↔
        ((Tokens.ofSource source).body.filter (·.kind = .number)).length ≤ 256) := by
  refine ⟨⟨?_, ?_⟩, ?_⟩
  · intro hcompile
    rcases hcompile with ⟨c, hc⟩
    rcases compile_eq_ok_iff.1 hc with ⟨e, he, hlevel, hnumbers, -⟩
    refine ⟨?_, e, he, hnumbers, hlevel⟩
    rw [Tokens.toList, List.forall_mem_append]
    refine ⟨he.proper, ?_⟩
    rw [List.forall_mem_singleton, Token.Proper, Tokens.kind_finish_ofSource]
    rfl
  · intro hsentence
    rcases hsentence with ⟨-, e, he, hnumbers, hlevel⟩
    exact ⟨_, compile_eq_ok_iff.2 ⟨e, he, hlevel, hnumbers, rfl⟩⟩
  · intro n hn hchain
    rcases hchain.summation.exists_derives with ⟨e, he, hle⟩
    rw [← he.numbers_eq]
    constructor
    · intro hcompile
      rcases hcompile with ⟨c, hc⟩
      rcases compile_eq_ok_iff.1 hc with ⟨e', he', -, hnumbers, -⟩
      rw [he.unique he']
      exact hnumbers
    · intro hnumbers
      have hlevel : e.level ≤ maxLevels := Nat.le_trans hle (show n + 2 ≤ 200 by omega)
      exact ⟨_, compile_eq_ok_iff.2 ⟨e, he, hlevel, hnumbers, rfl⟩⟩

/-- A chain of three operands, the last of which is negated. -/
theorem exists_compile_chain_of_three :
    Chain 2 (Tokens.ofSource "1 + 2 * -3").body ∧
      ∃ c, Chunk.compile "1 + 2 * -3" = .ok c := by
  have hbody : (Tokens.ofSource "1 + 2 * -3").body =
      [⟨.number, "1", ⟨0, 1⟩, 1⟩] ++ ⟨.symbol .plus, "+", ⟨2, 3⟩, 1⟩ ::
        [⟨.number, "2", ⟨4, 5⟩, 1⟩] ++ ⟨.symbol .star, "*", ⟨6, 7⟩, 1⟩ ::
          [⟨.symbol .minus, "-", ⟨8, 9⟩, 1⟩, ⟨.number, "3", ⟨9, 10⟩, 1⟩] := by
    decide +kernel
  have hchain : Chain 2 (Tokens.ofSource "1 + 2 * -3").body := by
    rw [hbody]
    exact .operation
      (.operation (.operand (.number rfl) (by decide)) rfl (.number rfl) (by decide))
      rfl (.negate rfl (.number rfl)) (by decide)
  exact ⟨hchain, ((exists_compile_eq_ok_iff _).2 2 (by decide) hchain).2 (by decide +kernel)⟩

end ArithVM
