import ArithVM.Expr

/-!
# The grammar of expressions

    expression := term
    term       := factor (("+" | "-") factor)*
    factor     := unary (("*" | "/") unary)*
    unary      := "-" unary | primary
    primary    := NUMBER | "(" expression ")"

`Derives p e ts` says that the tokens `ts` are a phrase of precedence `p` whose tree is `e`.  The
repetitions of the grammar are written as left recursion: the left operand of an operation may be
an operation of the same precedence, the right operand has to bind tighter.
-/

namespace ArithVM

/-- The derivations of the grammar, phrase by phrase. -/
inductive Derives : Precedence → Expr → List Token → Prop where
  | number {t : Token} (ht : t.kind = .number) :
    Derives .unary (.number t) [t]
  | group {e : Expr} {opening closing : Token} {ts : List Token}
    (hopening : opening.kind = .symbol .leftParen) (hclosing : closing.kind = .symbol .rightParen)
    (he : Derives .term e ts) :
    Derives .unary (.group e) (opening :: ts ++ [closing])
  | negate {e : Expr} {sign : Token} {ts : List Token}
    (hsign : sign.kind = .symbol .minus) (he : Derives .unary e ts) :
    Derives .unary (.negate sign e) (sign :: ts)
  | binary {op : Operator} {left right : Expr} {sign : Token} {ls rs : List Token}
    (hsign : sign.kind.operator? = some op)
    (hleft : Derives op.precedence left ls) (hright : Derives op.precedence.tighter right rs) :
    Derives op.precedence (.binary op sign left right) (ls ++ sign :: rs)
  | ofUnary {e : Expr} {ts : List Token} (he : Derives .unary e ts) : Derives .factor e ts
  | ofFactor {e : Expr} {ts : List Token} (he : Derives .factor e ts) : Derives .term e ts

namespace Derives

/-- A phrase that binds tightly may stand wherever a looser one may. -/
theorem loosen {p q : Precedence} {e : Expr} {ts : List Token} (h : Derives p e ts)
    (hpq : q.rank ≤ p.rank) : Derives q e ts :=
  match p, q, hpq, h with
  | .term, .term, _, h => h
  | .factor, .term, _, h => .ofFactor h
  | .factor, .factor, _, h => h
  | .unary, .term, _, h => .ofFactor (.ofUnary h)
  | .unary, .factor, _, h => .ofUnary h
  | .unary, .unary, _, h => h
  | .term, .factor, hpq, _ => absurd hpq (by decide)
  | .term, .unary, hpq, _ => absurd hpq (by decide)
  | .factor, .unary, hpq, _ => absurd hpq (by decide)

/-- The numbers of a tree are the number tokens of its phrase. -/
theorem numbers_eq {p : Precedence} {e : Expr} {ts : List Token} (h : Derives p e ts) :
    e.numbers = ts.filter (·.kind = .number) := by
  induction h with
  | number ht => simp [Expr.numbers, ht]
  | group hopening hclosing _ ih => simp [Expr.numbers, ih, hopening, hclosing]
  | negate hsign _ ih => simp [Expr.numbers, ih, hsign]
  | binary hsign _ _ ihl ihr =>
    rename_i sign _ _ _ _
    have hkind : sign.kind ≠ .number := by
      intro h
      simp [h, TokenKind.operator?] at hsign
    simp [Expr.numbers, ihl, ihr, hkind]
  | ofUnary _ ih => exact ih
  | ofFactor _ ih => exact ih

theorem ne_nil {p : Precedence} {e : Expr} {ts : List Token} (h : Derives p e ts) : ts ≠ [] := by
  intro hts
  have := h.numbers_eq
  rw [hts] at this
  exact e.numbers_ne_nil this

end Derives

end ArithVM
