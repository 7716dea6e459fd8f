import ArithVM.Proofs.Grammar.Reading

/-!
# Viable prefixes — how far tokens agree with the grammar

Tokens are viable if they are the beginning of some sentence and the end behind it.  A viable
beginning either requires an operand (`Opens`), or has just completed one (`Completes`), or is a
sentence with its end.  Reading tells these apart, and it gets stuck exactly where a beginning stops
being viable.
-/

namespace ArithVM

/-- The tokens begin some sentence of the grammar that is followed by the end. -/
def Viable (ts : List Token) : Prop :=
  ∃ e us finish, Derives .term e us ∧ finish.kind = .endOfInput ∧ ts <+: us ++ [finish]

theorem Viable.beginning {ts us : List Token} (hbegins : ts <+: us) (h : Viable us) :
    Viable ts := by
  rcases h with ⟨e, ws, finish, he, hfinish, hus⟩
  exact ⟨e, ws, finish, he, hfinish, hbegins.trans hus⟩

/-- The tokens lead to a place that requires an operand, and the phrases of the context are open
    there. -/
inductive Opens : Context → List Token → Prop where
  | program : Opens .program []
  | group {outer : Context} {opening : Token} {ts : List Token}
    (houter : Opens outer ts) (hopening : opening.kind = .symbol .leftParen) :
    Opens (.group outer) (ts ++ [opening])
  | negation {outer : Context} {sign : Token} {ts : List Token}
    (houter : Opens outer ts) (hsign : sign.kind = .symbol .minus) :
    Opens (.negation sign outer) (ts ++ [sign])
  | operand {op : Operator} {sign : Token} {left : Expr} {outer : Context} {ts ls : List Token}
    (houter : Opens outer ts) (hrank : outer.precedence.rank ≤ op.precedence.rank)
    (hleft : Derives op.precedence left ls) (hsign : sign.kind.operator? = some op) :
    Opens (.operand op sign left outer) (ts ++ (ls ++ [sign]))

/-- The tokens end with a complete operand, and the phrases of the context are open around it. -/
inductive Completes : Context → Expr → List Token → Prop where
  | intro {context : Context} {p : Precedence} {e : Expr} {ts us : List Token}
    (hopens : Opens context ts) (hrank : context.precedence.rank ≤ p.rank)
    (he : Derives p e us) : Completes context e (ts ++ us)

/-! ## What a reading says about the tokens before it -/

/-- Closing phrases moves tokens from the open phrases to the complete operand. -/
theorem Opens.close {context : Context} {kind : TokenKind} {us : List Token}
    (hopens : Opens context us) :
    ∀ {p : Precedence} {e : Expr} {vs : List Token}, context.precedence.rank ≤ p.rank →
      Derives p e vs → p.Admits kind →
      ∃ p' us' vs', us ++ vs = us' ++ vs' ∧ Opens (context.close kind e).1 us' ∧
        Derives p' (context.close kind e).2 vs' ∧ p'.Admits kind ∧
        (context.close kind e).1.precedence.rank ≤ p'.rank := by
  -- The induction is on the places from the inside out; the operand grows with every phrase that
  -- is closed around it.
  induction hopens with
  | program =>
    intro p e vs hp he hkind
    exact ⟨p, [], vs, rfl, .program, he, hkind, hp⟩
  | @group outer opening ts houter hopening _ =>
    intro p e vs hp he hkind
    exact ⟨p, ts ++ [opening], vs, rfl, .group houter hopening, he, hkind, hp⟩
  | @negation outer sign ts houter hsign ih =>
    intro p e vs hp he _
    have hnegate := Derives.negate hsign (he.loosen hp)
    rcases ih outer.precedence.rank_le_unary hnegate (.unary kind) with ⟨p', us', vs', happend, h⟩
    refine ⟨p', us', vs', ?_, h⟩
    rw [← happend, List.append_assoc, List.singleton_append]
  | @operand op sign left outer ts ls houter hrank hleft hsign ih =>
    intro p e vs hp he hkind
    by_cases hsome : ((Context.operand op sign left outer).continuation? kind).isSome
    · rw [Context.close, if_pos hsome]
      exact ⟨p, _, vs, rfl, .operand houter hrank hleft hsign, he, hkind, hp⟩
    · have hnone := Option.not_isSome_iff_eq_none.1 hsome
      have hbinary := Derives.binary hsign hleft (he.loosen hp)
      rcases ih hrank hbinary (Context.admits_of_continuation?_operand_eq_none hnone) with
        ⟨p', us', vs', happend, h⟩
      rw [Context.close, if_neg hsome]
      refine ⟨p', us', vs', ?_, h⟩
      rw [← happend, List.append_assoc, List.append_assoc, List.singleton_append]

namespace Reading

/-- The reading describes the tokens truly. -/
def Follows : Reading → List Token → Prop
  | .operand context, ts => Opens context ts
  | .operator context e, ts => ∃ us vs, ts = us ++ vs ∧ Opens context us ∧ Derives .unary e vs
  | .finished e, ts =>
    ∃ us finish, ts = us ++ [finish] ∧ finish.kind = .endOfInput ∧ Derives .term e us

theorem Follows.step {r s : Reading} {t : Token} {ts : List Token} (h : r.Follows ts)
    (hstep : r.step t = some s) : s.Follows (ts ++ [t]) := by
  cases move_of_step hstep with
  | number ht => exact ⟨ts, [t], rfl, h, .number ht⟩
  | group ht => exact .group h ht
  | negation ht => exact .negation h ht
  | operand hclose ht hrank =>
    rcases h with ⟨us, vs, rfl, hopens, he⟩
    rcases hopens.close (Precedence.rank_le_unary _) he (.unary t.kind) with
      ⟨p, us', vs', happend, hopens', he', hadmits, -⟩
    rw [hclose] at hopens' he'
    rw [happend, List.append_assoc]
    exact .operand hopens' hrank (he'.loosen (hadmits _ ht)) ht
  | closing hclose ht =>
    rcases h with ⟨us, vs, rfl, hopens, he⟩
    rcases hopens.close (Precedence.rank_le_unary _) he (.unary t.kind) with
      ⟨p, us', vs', happend, hopens', he', -, hp⟩
    rw [hclose] at hopens' he' hp
    rw [happend]
    obtain @⟨_⟩ | ⟨houter, hopening⟩ := hopens'
    refine ⟨_, _, ?_, houter, .group hopening ht (he'.loosen hp)⟩
    rw [List.append_assoc, List.append_assoc]
    rfl
  | finish hclose ht =>
    rcases h with ⟨us, vs, rfl, hopens, he⟩
    rcases hopens.close (Precedence.rank_le_unary _) he (.unary t.kind) with
      ⟨p, us', vs', happend, hopens', he', -, hp⟩
    rw [hclose] at hopens' he' hp
    rw [happend]
    cases hopens'
    exact ⟨vs', t, rfl, ht, he'.loosen hp⟩

theorem Follows.run {r s : Reading} {ts us : List Token} (h : r.Follows ts)
    (hrun : r.run us = some s) : s.Follows (ts ++ us) := by
  induction us generalizing r ts with
  | nil =>
    rw [run_nil, Option.some.injEq] at hrun
    rw [← hrun, List.append_nil]
    exact h
  | cons u us ih =>
    rw [run_cons, Option.bind_eq_some_iff] at hrun
    rcases hrun with ⟨r', hstep, hrun⟩
    have h' := ih (h.step hstep) hrun
    rwa [List.append_assoc, List.singleton_append] at h'

theorem follows_of_run {s : Reading} {ts : List Token} (h : start.run ts = some s) :
    s.Follows ts := by
  have hstart : start.Follows [] := .program
  exact hstart.run h

end Reading

/-! ## Open phrases can be completed -/

open Reading

/-- A phrase that fits into an open place is viable there: a number token, closing parentheses and
    the end complete a sentence. -/
theorem Opens.viable_append {context : Context} {ts : List Token} (h : Opens context ts) :
    ∀ {p : Precedence} {e : Expr} {us : List Token}, context.precedence.rank ≤ p.rank →
      Derives p e us → Viable (ts ++ us) := by
  induction h with
  | program =>
    intro p e us hp he
    exact ⟨e, us, ⟨.endOfInput, "", ⟨0, 0⟩, 1⟩, he.loosen hp, rfl, List.prefix_append ..⟩
  | @group outer opening ts houter hopening ih =>
    intro p e us hp he
    have hclosing : (⟨.symbol .rightParen, ")", ⟨0, 0⟩, 1⟩ : Token).kind = .symbol .rightParen := rfl
    have hgroup := Derives.group hopening hclosing (he.loosen hp)
    refine Viable.beginning ?_ (ih outer.precedence.rank_le_unary hgroup)
    refine ⟨[⟨.symbol .rightParen, ")", ⟨0, 0⟩, 1⟩], ?_⟩
    rw [List.append_assoc, List.append_assoc]
    rfl
  | @negation outer sign ts houter hsign ih =>
    intro p e us hp he
    have hviable := ih outer.precedence.rank_le_unary (.negate hsign (he.loosen hp))
    rwa [List.append_assoc, List.singleton_append]
  | @operand op sign left outer ts ls houter hrank hleft hsign ih =>
    intro p e us hp he
    have hviable := ih hrank (.binary hsign hleft (he.loosen hp))
    rwa [List.append_assoc, List.append_assoc, List.singleton_append]

/-! ## Reading decides what a beginning is -/

theorem Opens.run_start {context : Context} {ts : List Token} (h : Opens context ts) :
    start.run ts = some (.operand context) := by
  induction h with
  | program => rfl
  | group _ hopening ih =>
    exact run_concat ih (Move.group hopening).step_eq
  | negation _ hsign ih =>
    exact run_concat ih (Move.negation hsign).step_eq
  | @operand op sign left outer ts ls _ hrank hleft hsign ih =>
    -- Phrases inside of the left operand may still be open; the sign closes them.
    rcases hleft.exists_run outer hrank with ⟨inner, last, hrun, hclose⟩
    have hop : outer.continuation? sign.kind = some op :=
      Context.continuation?_eq_some_iff.2 ⟨hsign, hrank⟩
    have hinner := hclose _ (.of_operator?_eq_some hsign)
    rw [Context.close_of_continuation?_eq_some hop] at hinner
    rw [run_append_of_eq_some ih, run_concat hrun (Move.operand hinner hsign hrank).step_eq]

theorem run_start_eq_operand_iff {context : Context} {ts : List Token} :
    start.run ts = some (.operand context) ↔ Opens context ts :=
  ⟨follows_of_run, Opens.run_start⟩

theorem completes_of_run_start {context : Context} {e : Expr} {ts : List Token}
    (h : start.run ts = some (.operator context e)) : Completes context e ts := by
  rcases follows_of_run h with ⟨us, vs, rfl, hopens, he⟩
  exact .intro hopens context.precedence.rank_le_unary he

/-- Behind a complete operand the reading may have more phrases open than the grammar needs, but
    the same parentheses. -/
theorem Completes.run_start {context : Context} {e : Expr} {ts : List Token}
    (h : Completes context e ts) :
    ∃ inner last, start.run ts = some (.operator inner last) ∧ inner.groups = context.groups := by
  rcases h with ⟨hopens, hrank, he⟩
  rcases he.exists_run context hrank with ⟨inner, last, hrun, hclose⟩
  refine ⟨inner, last, ?_, ?_⟩
  · rw [run_append_of_eq_some hopens.run_start, hrun]
  · have hgroups := congrArg (·.1.groups) (hclose .endOfInput (.of_operator?_eq_none rfl))
    rwa [Context.groups_close, Context.groups_close] at hgroups

/-- **Reading gets stuck exactly behind the viable beginnings.** -/
theorem viable_iff_isSome_run {ts : List Token} : Viable ts ↔ (start.run ts).isSome := by
  constructor
  · intro hviable
    rcases hviable with ⟨e, us, finish, he, hfinish, rest, hrest⟩
    have hwhole : (start.run (ts ++ rest)).isSome := by
      rw [hrest, he.run_start hfinish]
      rfl
    exact isSome_run_of_append hwhole
  · intro h
    rcases Option.isSome_iff_exists.1 h with ⟨r, hr⟩
    have hfollows := follows_of_run hr
    -- A required operand is completed by a number, everything else by what closes it.
    cases r with
    | operand context =>
      have hnumber : Derives .unary _ [⟨.number, "0", ⟨0, 0⟩, 1⟩] := .number rfl
      exact .beginning (List.prefix_append ..)
        (Opens.viable_append hfollows context.precedence.rank_le_unary hnumber)
    | operator context e =>
      rcases hfollows with ⟨us, vs, rfl, hopens, he⟩
      exact hopens.viable_append context.precedence.rank_le_unary he
    | finished e =>
      rcases hfollows with ⟨us, finish, rfl, hfinish, he⟩
      exact ⟨e, us, finish, he, hfinish, List.prefix_rfl⟩

theorem viable_of_run {ts : List Token} {r : Reading} (h : start.run ts = some r) : Viable ts := by
  rw [viable_iff_isSome_run, h]
  rfl

theorem not_viable_of_step {before : List Token} {t : Token} {r : Reading}
    (hrun : start.run before = some r) (hstep : r.step t = none) : ¬ Viable (before ++ [t]) := by
  rw [viable_iff_isSome_run, run_append_of_eq_some hrun, run_cons, hstep]
  simp

theorem viable_append_singleton_iff {ts : List Token} {t : Token} :
    Viable (ts ++ [t]) ↔ ∃ r s, start.run ts = some r ∧ Move t r s := by
  rw [viable_iff_isSome_run, run_append]
  constructor
  · intro h
    cases hrun : start.run ts with
    | none =>
      rw [hrun] at h
      contradiction
    | some r =>
      rw [hrun, Option.bind_some, run_cons, Option.isSome_iff_exists] at h
      rcases h with ⟨s, hs⟩
      rcases Option.bind_eq_some_iff.1 hs with ⟨s', hstep, -⟩
      exact ⟨r, s', rfl, move_of_step hstep⟩
  · intro hreading
    rcases hreading with ⟨r, s, hrun, hmove⟩
    rw [hrun, Option.bind_some, run_cons, hmove.step_eq]
    rfl

end ArithVM
