import ArithVM.Expr.Grammar

/-!
# Repetitions — sums and products as the grammar writes them

The grammar writes a sum as a term and then any number of rounds, each a sign and one more term; a
product likewise.  The tree of a repetition is folded from the left: every round takes all that
stands before it as its left operand.
-/

namespace ArithVM

/-- One round of a repetition: a sign and the operand behind it. -/
structure Round where
  op : Operator
  sign : Token
  operand : Expr
  tokens : List Token

namespace Round

def Fits (p : Precedence) (round : Round) : Prop :=
  round.op.precedence = p ∧ round.sign.kind.operator? = some round.op ∧
    Derives p.tighter round.operand round.tokens

def apply (left : Expr) (round : Round) : Expr :=
  .binary round.op round.sign left round.operand

def phrase (round : Round) : List Token :=
  round.sign :: round.tokens

end Round

/-- An operand and rounds behind it, with the tree that is folded over them from the left. -/
def Repeats (p : Precedence) (e : Expr) (ts : List Token) : Prop :=
  ∃ (first : Expr) (fs : List Token) (rounds : List Round),
    Derives p.tighter first fs ∧ (∀ round ∈ rounds, round.Fits p) ∧
      e = rounds.foldl Round.apply first ∧ ts = fs ++ rounds.flatMap Round.phrase

theorem Derives.binary_of_precedence {op : Operator} {p : Precedence} {left right : Expr}
    {sign : Token} {ls rs : List Token} (hop : op.precedence = p)
    (hsign : sign.kind.operator? = some op) (hleft : Derives p left ls)
    (hright : Derives p.tighter right rs) :
    Derives p (.binary op sign left right) (ls ++ sign :: rs) := by
  rw [← hop] at hleft hright ⊢
  exact .binary hsign hleft hright

theorem Derives.foldl_rounds {p : Precedence} {rounds : List Round}
    (hrounds : ∀ round ∈ rounds, round.Fits p) {e : Expr} {ts : List Token} (h : Derives p e ts) :
    Derives p (rounds.foldl Round.apply e) (ts ++ rounds.flatMap Round.phrase) := by
  induction rounds generalizing e ts with
  | nil =>
    rw [List.flatMap_nil, List.append_nil]
    exact h
  | cons round rounds ih =>
    rcases hrounds round List.mem_cons_self with ⟨hop, hsign, hoperand⟩
    have hrest : ∀ other ∈ rounds, other.Fits p :=
      fun other hother => hrounds other (List.mem_cons_of_mem round hother)
    have hleft : Derives p (round.apply e) (ts ++ round.phrase) :=
      binary_of_precedence hop hsign h hoperand
    rw [List.foldl_cons, List.flatMap_cons, ← List.append_assoc]
    exact ih hrest hleft

theorem Derives.repeats {p : Precedence} {e : Expr} {ts : List Token} (h : Derives p e ts)
    (hp : p ≠ .unary) : Repeats p e ts := by
  induction h with
  | number => contradiction
  | group => contradiction
  | negate => contradiction
  | @binary op left right sign ls rs hsign hleft hright ihleft _ =>
    -- The operation is one more round behind those of its left operand.
    rcases ihleft hp with ⟨first, fs, rounds, hfirst, hrounds, rfl, rfl⟩
    refine ⟨first, fs, rounds ++ [⟨op, sign, right, rs⟩], hfirst, ?_, ?_, ?_⟩
    · rw [List.forall_mem_append, List.forall_mem_singleton]
      exact ⟨hrounds, rfl, hsign, hright⟩
    · rw [List.foldl_append]
      rfl
    · rw [List.flatMap_append, List.flatMap_singleton, List.append_assoc]
      rfl
  | @ofUnary e ts he _ =>
    exact ⟨e, ts, [], he, List.forall_mem_nil _, rfl, (List.append_nil ts).symm⟩
  | @ofFactor e ts he _ =>
    exact ⟨e, ts, [], he, List.forall_mem_nil _, rfl, (List.append_nil ts).symm⟩

/-- **Repetitions fold to the left.** -/
theorem derives_iff_repeats {p : Precedence} (hp : p ≠ .unary) {e : Expr} {ts : List Token} :
    Derives p e ts ↔ Repeats p e ts := by
  constructor
  · intro h
    exact h.repeats hp
  · intro h
    rcases h with ⟨first, fs, rounds, hfirst, hrounds, rfl, rfl⟩
    have hloosen : p.rank ≤ p.tighter.rank := by cases p <;> decide
    exact (hfirst.loosen hloosen).foldl_rounds hrounds

end ArithVM
