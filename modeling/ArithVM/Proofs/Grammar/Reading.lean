import ArithVM.Expr.Grammar

/-!
# Reading the grammar — every sentence has one tree

The grammar can be read from left to right with one token of lookahead.  A `Reading` is what is
known between two tokens: the phrases that are still open and, where an operand is complete, its
tree.  Reading is a function, it has no limits, and it gets through every phrase of the grammar.
That is why a sentence has one tree only.
-/

namespace ArithVM

/-! ## Operators between operands -/

theorem Precedence.rank_le_unary (p : Precedence) : p.rank ≤ Precedence.unary.rank := by
  cases p <;> decide

theorem Operator.rank_precedence_lt_unary (op : Operator) :
    op.precedence.rank < Precedence.unary.rank := by
  cases op <;> decide

theorem Operator.rank_precedence_lt_tighter_iff (op other : Operator) :
    other.precedence.rank < op.precedence.tighter.rank ↔
      other.precedence.rank ≤ op.precedence.rank := by
  cases op <;> cases other <;> decide

/-- A token that may stand behind a phrase of this precedence without reaching into it. -/
def Precedence.Admits (p : Precedence) (kind : TokenKind) : Prop :=
  ∀ op, kind.operator? = some op → op.precedence.rank ≤ p.rank

namespace Precedence.Admits

theorem unary (kind : TokenKind) : Precedence.unary.Admits kind :=
  fun op _ => Nat.le_of_lt op.rank_precedence_lt_unary

theorem mono {p q : Precedence} {kind : TokenKind} (h : p.Admits kind) (hpq : p.rank ≤ q.rank) :
    q.Admits kind :=
  fun op hop => Nat.le_trans (h op hop) hpq

theorem of_operator?_eq_none {p : Precedence} {kind : TokenKind} (h : kind.operator? = none) :
    p.Admits kind := by
  intro op hop
  rw [h] at hop
  contradiction

theorem of_operator?_eq_some {op : Operator} {kind : TokenKind} (h : kind.operator? = some op) :
    op.precedence.Admits kind := by
  intro other hother
  rw [h, Option.some.injEq] at hother
  subst hother
  exact Nat.le_refl _

end Precedence.Admits

/-! ## Open phrases -/

/-- The phrases that are open where an operand is required, the innermost first, with what has been
    read of them. -/
inductive Context where
  | program
  | group (outer : Context)
  | negation (sign : Token) (outer : Context)
  | operand (op : Operator) (sign : Token) (left : Expr) (outer : Context)
deriving DecidableEq, Repr

namespace Context

/-- The loosest operation that may continue an operand in this place. -/
def precedence : Context → Precedence
  | .program => .term
  | .group _ => .term
  | .negation .. => .unary
  | .operand op .. => op.precedence.tighter

def groups : Context → Nat
  | .program => 0
  | .group outer => outer.groups + 1
  | .negation _ outer => outer.groups
  | .operand _ _ _ outer => outer.groups

/-- The operation by which a token continues the operand in this place. -/
def continuation? (context : Context) (kind : TokenKind) : Option Operator :=
  kind.operator?.filter fun op => context.precedence.rank ≤ op.precedence.rank

theorem continuation?_eq_some_iff {context : Context} {kind : TokenKind} {op : Operator} :
    context.continuation? kind = some op ↔
      kind.operator? = some op ∧ context.precedence.rank ≤ op.precedence.rank := by
  simp only [continuation?, Option.filter_eq_some_iff, decide_eq_true_eq]

theorem continuation?_negation (sign : Token) (outer : Context) (kind : TokenKind) :
    (negation sign outer).continuation? kind = none := by
  rw [Option.eq_none_iff_forall_ne_some]
  intro op hop
  have hrank := (continuation?_eq_some_iff.1 hop).2
  have hlt := op.rank_precedence_lt_unary
  simp only [precedence] at hrank
  omega

theorem continuation?_operand_of_admits {op : Operator} {sign : Token} {left : Expr}
    {outer : Context} {kind : TokenKind} (h : op.precedence.Admits kind) :
    (operand op sign left outer).continuation? kind = none := by
  rw [Option.eq_none_iff_forall_ne_some]
  intro other hother
  rcases continuation?_eq_some_iff.1 hother with ⟨hkind, hrank⟩
  have hlt := (op.rank_precedence_lt_tighter_iff other).2 (h other hkind)
  simp only [precedence] at hrank
  omega

theorem admits_of_continuation?_operand_eq_none {op : Operator} {sign : Token} {left : Expr}
    {outer : Context} {kind : TokenKind}
    (h : (operand op sign left outer).continuation? kind = none) :
    op.precedence.Admits kind := by
  intro other hother
  rw [← op.rank_precedence_lt_tighter_iff other]
  refine Nat.lt_of_not_le fun hge => ?_
  have hsome : (operand op sign left outer).continuation? kind = some other :=
    continuation?_eq_some_iff.2 ⟨hother, hge⟩
  rw [h] at hsome
  contradiction

/-- Closes the phrases that end with the operand `e` when a token of this kind follows it. -/
def close (kind : TokenKind) : Context → Expr → Context × Expr
  | .negation sign outer, e => close kind outer (.negate sign e)
  | .operand op sign left outer, e =>
    if ((operand op sign left outer).continuation? kind).isSome then
      (.operand op sign left outer, e)
    else
      close kind outer (.binary op sign left e)
  | context, e => (context, e)

theorem close_of_continuation?_eq_some {context : Context} {kind : TokenKind} {op : Operator}
    (h : context.continuation? kind = some op) (e : Expr) :
    context.close kind e = (context, e) := by
  cases context with
  | program => rfl
  | group => rfl
  | negation => rw [continuation?_negation] at h; contradiction
  | operand => rw [close, h, Option.isSome_some, if_pos rfl]

theorem close_operand_of_admits {op : Operator} {kind : TokenKind} (h : op.precedence.Admits kind)
    (sign : Token) (left right : Expr) (outer : Context) :
    (operand op sign left outer).close kind right =
      outer.close kind (.binary op sign left right) := by
  rw [close, continuation?_operand_of_admits h, if_neg (by simp)]

theorem groups_close (kind : TokenKind) (context : Context) (e : Expr) :
    (context.close kind e).1.groups = context.groups := by
  induction context generalizing e with
  | program => rfl
  | group => rfl
  | negation sign outer ih => rw [close, ih, groups]
  | operand op sign left outer ih =>
    rw [close]
    split
    · rfl
    · rw [ih, groups]

/-- Behind a token that continues nothing, only a parenthesis or the program is open. -/
theorem close_of_continuation?_eq_none {context : Context} {kind : TokenKind} {e : Expr}
    (h : (context.close kind e).1.continuation? kind = none) :
    (context.close kind e).1 = .program ∨ ∃ outer, (context.close kind e).1 = .group outer := by
  induction context generalizing e with
  | program => exact .inl rfl
  | group outer => exact .inr ⟨outer, rfl⟩
  | negation sign outer ih =>
    rw [close] at h ⊢
    exact ih h
  | operand op sign left outer ih =>
    rw [close] at h ⊢
    split at h
    next hsome =>
      rw [h] at hsome
      contradiction
    next hnone =>
      rw [if_neg hnone]
      exact ih h

theorem close_eq_program {context : Context} {kind : TokenKind} (hkind : kind.operator? = none)
    (hgroups : context.groups = 0) (e : Expr) :
    ∃ whole, context.close kind e = (.program, whole) := by
  have hnone : (context.close kind e).1.continuation? kind = none := by
    rw [continuation?, hkind]
    rfl
  rw [← groups_close kind context e] at hgroups
  rcases close_of_continuation?_eq_none hnone with hprogram | ⟨outer, hgroup⟩
  · exact ⟨_, Prod.ext hprogram rfl⟩
  · rw [hgroup] at hgroups
    contradiction

theorem close_eq_group {context : Context} {kind : TokenKind} (hkind : kind.operator? = none)
    (hgroups : 0 < context.groups) (e : Expr) :
    ∃ outer whole, context.close kind e = (.group outer, whole) := by
  have hnone : (context.close kind e).1.continuation? kind = none := by
    rw [continuation?, hkind]
    rfl
  rw [← groups_close kind context e] at hgroups
  rcases close_of_continuation?_eq_none hnone with hprogram | ⟨outer, hgroup⟩
  · rw [hprogram] at hgroups
    contradiction
  · exact ⟨outer, _, Prod.ext hgroup rfl⟩

end Context

/-! ## Reading token by token -/

/-- What is known between two tokens. -/
inductive Reading where
  /-- An operand is required. -/
  | operand (context : Context)
  /-- The operand `e` is complete; the next token may continue it. -/
  | operator (context : Context) (e : Expr)
  /-- The end has been read behind the sentence of `e`. -/
  | finished (e : Expr)
deriving DecidableEq, Repr

namespace Reading

def start : Reading := .operand .program

/-- Reads one token, if the grammar allows it here. -/
def step : Reading → Token → Option Reading
  | .operand context, t =>
    match t.kind with
    | .number => some (.operator context (.number t))
    | .symbol .leftParen => some (.operand (.group context))
    | .symbol .minus => some (.operand (.negation t context))
    | _ => none
  | .operator context e, t =>
    -- The token meets the innermost place that it does not close.
    let (context, e) := context.close t.kind e
    match context.continuation? t.kind with
    | some op => some (.operand (.operand op t e context))
    | none =>
      match context, t.kind with
      | .group outer, .symbol .rightParen => some (.operator outer (.group e))
      | .program, .endOfInput => some (.finished e)
      | _, _ => none
  | .finished _, _ => none

def run (r : Reading) (ts : List Token) : Option Reading :=
  ts.foldlM step r

@[simp]
theorem run_nil (r : Reading) : r.run [] = some r := rfl

@[simp]
theorem run_cons (r : Reading) (t : Token) (ts : List Token) :
    r.run (t :: ts) = (r.step t).bind (·.run ts) := rfl

theorem run_append (r : Reading) (ts us : List Token) :
    r.run (ts ++ us) = (r.run ts).bind (·.run us) := by
  rw [run, List.foldlM_append]
  rfl

theorem run_append_of_eq_some {r s : Reading} {ts : List Token} (h : r.run ts = some s)
    (us : List Token) : r.run (ts ++ us) = s.run us := by
  rw [run_append, h, Option.bind_some]

theorem run_concat {r s last : Reading} {ts : List Token} {t : Token} (h : r.run ts = some s)
    (hstep : s.step t = some last) : r.run (ts ++ [t]) = some last := by
  rw [run_append_of_eq_some h, run_cons, hstep]
  rfl

theorem isSome_run_of_append {r : Reading} {ts us : List Token}
    (h : (r.run (ts ++ us)).isSome) : (r.run ts).isSome := by
  rw [run_append] at h
  cases hrun : r.run ts with
  | none => rw [hrun] at h; contradiction
  | some s => rfl

/-- The steps of a reading, one constructor for each. -/
inductive Move (t : Token) : Reading → Reading → Prop where
  | number {context : Context} (ht : t.kind = .number) :
    Move t (.operand context) (.operator context (.number t))
  | group {context : Context} (ht : t.kind = .symbol .leftParen) :
    Move t (.operand context) (.operand (.group context))
  | negation {context : Context} (ht : t.kind = .symbol .minus) :
    Move t (.operand context) (.operand (.negation t context))
  | operand {context closed : Context} {e whole : Expr} {op : Operator}
    (hclose : context.close t.kind e = (closed, whole)) (ht : t.kind.operator? = some op)
    (hrank : closed.precedence.rank ≤ op.precedence.rank) :
    Move t (.operator context e) (.operand (.operand op t whole closed))
  | closing {context outer : Context} {e whole : Expr}
    (hclose : context.close t.kind e = (.group outer, whole)) (ht : t.kind = .symbol .rightParen) :
    Move t (.operator context e) (.operator outer (.group whole))
  | finish {context : Context} {e whole : Expr}
    (hclose : context.close t.kind e = (.program, whole)) (ht : t.kind = .endOfInput) :
    Move t (.operator context e) (.finished whole)

theorem Move.step_eq {r s : Reading} {t : Token} (h : Move t r s) : r.step t = some s := by
  cases h with
  | number ht => simp only [step, ht]
  | group ht => simp only [step, ht]
  | negation ht => simp only [step, ht]
  | operand hclose ht hrank =>
    have hop := Context.continuation?_eq_some_iff.2 ⟨ht, hrank⟩
    simp only [step, hclose, hop]
  | @closing context outer e whole hclose ht =>
    have hnone : (Context.group outer).continuation? t.kind = none := by rw [ht]; rfl
    simp only [step, hclose, hnone]
    rw [ht]
  | finish hclose ht =>
    have hnone : Context.program.continuation? t.kind = none := by rw [ht]; rfl
    simp only [step, hclose, hnone]
    rw [ht]

theorem move_of_step {r s : Reading} {t : Token} (h : r.step t = some s) : Move t r s := by
  cases r with
  | operand context =>
    simp only [step] at h
    split at h
    next ht => cases h; exact .number ht
    next ht => cases h; exact .group ht
    next ht => cases h; exact .negation ht
    next => contradiction
  | operator context e =>
    cases hclose : context.close t.kind e with
    | mk closed whole =>
      simp only [step, hclose] at h
      split at h
      next op hop =>
        cases h
        rcases Context.continuation?_eq_some_iff.1 hop with ⟨ht, hrank⟩
        exact .operand hclose ht hrank
      next =>
        split at h
        next ht _ => cases h; exact .closing hclose ht
        next ht _ => cases h; exact .finish hclose ht
        next => contradiction
  | finished => contradiction

end Reading

/-! ## Every phrase is read -/

open Reading

/-- **Phrases are read.**  Where an operand is required, a phrase that binds tightly enough brings
    the reading to a complete operand.  Phrases inside it may still be open then; a token that may
    stand behind the phrase closes them. -/
theorem Derives.exists_run {p : Precedence} {e : Expr} {ts : List Token} (h : Derives p e ts) :
    ∀ context : Context, context.precedence.rank ≤ p.rank →
      ∃ inner last, (operand context).run ts = some (.operator inner last) ∧
        ∀ kind, p.Admits kind → inner.close kind last = context.close kind e := by
  induction h with
  | number ht =>
    intro context _
    exact ⟨context, _, by rw [run_cons, (Move.number ht).step_eq]; rfl, fun _ _ => rfl⟩
  | @group e opening closing ts hopening hclosing _ ih =>
    intro context _
    rcases ih (.group context) (Nat.zero_le _) with ⟨inner, last, hrun, hclose⟩
    -- A parenthesis continues nothing, so it closes all phrases inside of the group.
    have hadmits : Precedence.term.Admits closing.kind :=
      .of_operator?_eq_none (by rw [hclosing]; rfl)
    have hmove := Move.closing (hclose _ hadmits) hclosing
    refine ⟨context, .group e, ?_, fun _ _ => rfl⟩
    rw [List.cons_append, run_cons, (Move.group hopening).step_eq, Option.bind_some,
      run_concat hrun hmove.step_eq]
  | @negate e sign ts hsign _ ih =>
    intro context _
    rcases ih (.negation sign context) (Nat.le_refl _) with ⟨inner, last, hrun, hclose⟩
    refine ⟨inner, last, ?_, fun kind hkind => hclose kind hkind⟩
    rw [run_cons, (Move.negation hsign).step_eq, Option.bind_some, hrun]
  | @binary op left right sign ls rs hsign _ _ ihleft ihright =>
    intro context hp
    rcases ihleft context hp with ⟨inner, last, hrun, hclose⟩
    -- The sign does not reach into the left operand, it continues the place around it.
    have hop : context.continuation? sign.kind = some op :=
      Context.continuation?_eq_some_iff.2 ⟨hsign, hp⟩
    have hleft : inner.close sign.kind last = (context, left) := by
      rw [hclose _ (.of_operator?_eq_some hsign), Context.close_of_continuation?_eq_some hop]
    rcases ihright (.operand op sign left context) (Nat.le_refl _) with
      ⟨inner', last', hrun', hclose'⟩
    refine ⟨inner', last', ?_, ?_⟩
    · rw [run_append_of_eq_some hrun, run_cons, (Move.operand hleft hsign hp).step_eq,
        Option.bind_some, hrun']
    · intro kind hkind
      rw [hclose' kind (hkind.mono (Nat.le_of_lt op.rank_precedence_lt)),
        Context.close_operand_of_admits hkind]
  | ofUnary _ ih =>
    intro context hp
    rcases ih context (Nat.le_trans hp (by decide)) with ⟨inner, last, hrun, hclose⟩
    exact ⟨inner, last, hrun, fun kind hkind => hclose kind (hkind.mono (by decide))⟩
  | ofFactor _ ih =>
    intro context hp
    rcases ih context (Nat.le_trans hp (by decide)) with ⟨inner, last, hrun, hclose⟩
    exact ⟨inner, last, hrun, fun kind hkind => hclose kind (hkind.mono (by decide))⟩

theorem Derives.run_start {e : Expr} {ts : List Token} (h : Derives .term e ts) {finish : Token}
    (hfinish : finish.kind = .endOfInput) : start.run (ts ++ [finish]) = some (.finished e) := by
  rcases h.exists_run .program (Nat.le_refl _) with ⟨inner, last, hrun, hclose⟩
  have hadmits : Precedence.term.Admits finish.kind :=
    .of_operator?_eq_none (by rw [hfinish]; rfl)
  have hmove := Move.finish (hclose _ hadmits) hfinish
  rw [start, run_concat hrun hmove.step_eq]

/-- **The grammar is unambiguous.** -/
theorem Derives.unique {e e' : Expr} {ts : List Token} (h : Derives .term e ts)
    (h' : Derives .term e' ts) : e = e' := by
  have hfinish : (⟨.endOfInput, "", ⟨0, 0⟩, 1⟩ : Token).kind = .endOfInput := rfl
  have hrun := h.run_start hfinish
  rw [h'.run_start hfinish, Option.some.injEq, Reading.finished.injEq] at hrun
  exact hrun.symm

end ArithVM
