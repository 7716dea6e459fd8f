import ArithVM.Proofs.Chunk.Tiling
import ArithVM.Proofs.Compile.Acceptance

/-!
# Decompilation — code read back as an expression

Code is an expression in post-order, and post-order can be read in one way only.  `Chunk.decompile`
builds the expression from the bytes and the constants of a chunk, without parentheses and with
values in the place of literals.  Sources with the same code and the same constants differ in
nothing else.
-/

namespace ArithVM

open Chunk

/-- What code can tell of an expression. -/
inductive Formula where
  | value (v : Value)
  | negate (operand : Formula)
  | binary (op : Operator) (left right : Formula)
deriving DecidableEq

/-- An expression without its parentheses, each literal replaced by its value. -/
def Expr.formula : Expr → Formula
  | .number literal => .value (Value.ofLiteral literal.text)
  | .group inner => inner.formula
  | .negate _ operand => .negate operand.formula
  | .binary op _ left right => .binary op left.formula right.formula

namespace Chunk

/-- Reads entries on, given the formulas that the entries before have built, the latest first.  The
    last entry has to be a return and the only one, with one formula built. -/
def readBack (constants : Pool) :
    List (Except DecodeError Instruction) → List Formula → Option Formula
  | [.ok .ret], [formula] => some formula
  | .ok (.constant index) :: entries, built => do
    let v ← constants.get? index.toNat
    readBack constants entries (.value v :: built)
  | .ok (.operator op) :: entries, right :: left :: built =>
    readBack constants entries (.binary op left right :: built)
  | .ok .negate :: entries, operand :: built =>
    readBack constants entries (.negate operand :: built)
  | _, _ => none

/-- The formula that some code computes, if it is the code of one. -/
def decompile (code : Array UInt8) (constants : Pool) : Option Formula :=
  readBack constants ((walk { code }).map Prod.snd) []

/-! ## Reading post-order -/

/-- The code of an expression builds its formula, whatever is built before and read behind. -/
theorem readBack_postorder {constants : Pool} (e : Expr) {first : Nat}
    (hvalues : constants.Holds first (e.numbers.map Token.value))
    (hfirst : first + e.numbers.length ≤ maxConstants)
    (entries : List (Except DecodeError Instruction)) (built : List Formula) :
    readBack constants ((e.postorder first).map (fun placed => .ok placed.1) ++ entries) built =
      readBack constants entries (e.formula :: built) := by
  -- An operand is read with the rest of the whole expression behind it, so the induction is for
  -- any entries behind and anything built before.
  induction e generalizing first entries built with
  | number literal =>
    have hvalue : constants.get? (UInt8.ofNat first).toNat = some literal.value :=
      hvalues.get?_operand hfirst
    simp only [Expr.postorder, List.map_cons, List.map_nil, List.cons_append, List.nil_append,
      readBack, hvalue]
    rfl
  | group inner ih => exact ih hvalues hfirst entries built
  | negate sign operand ih =>
    rw [Expr.postorder, List.map_append, List.append_assoc, ih hvalues hfirst]
    rfl
  | binary op sign left right ihleft ihright =>
    rw [Expr.numbers, List.map_append, Pool.holds_append, List.length_map] at hvalues
    rw [Expr.numbers, List.length_append] at hfirst
    -- The right operand is built last and lies on the left one, where the operator looks for it.
    rw [Expr.postorder, List.map_append, List.map_append, List.append_assoc, List.append_assoc,
      ihleft hvalues.1 (by omega), ihright hvalues.2 (by omega)]
    rfl

theorem map_snd_walk_encode (code : List Instruction) :
    (walk { code := (code.flatMap Instruction.encode).toArray }).map Prod.snd =
      code.map Except.ok := by
  have hcode : ({ code := (code.flatMap Instruction.encode).toArray } : Chunk).code.toList =
      [] ++ code.flatMap Instruction.encode := rfl
  have hwalk := walkFrom_encode hcode
  rw [List.length_nil] at hwalk
  rw [walk, hwalk]
  apply List.ext_getElem
  · simp only [List.length_map, List.length_mapIdx]
  · simp only [List.getElem_map, List.getElem_mapIdx, implies_true]

theorem decompile_chunk {e : Expr} (hnumbers : e.numbers.length ≤ maxConstants) (last : Nat) :
    decompile (e.chunk last).code (e.chunk last).constants = some e.formula := by
  have hcode : (e.chunk last).code =
      (((e.postorder 0 ++ [(Instruction.ret, last)]).map Prod.fst).flatMap
        Instruction.encode).toArray := by
    rw [List.flatMap_map]
    rfl
  rw [decompile, hcode, map_snd_walk_encode, List.map_map, List.map_append]
  exact readBack_postorder e (e.holds_chunk last) (by rw [Nat.zero_add]; exact hnumbers) _ []

end Chunk

theorem Value.toBits_injective : Function.Injective Float.toBits := by
  rintro ⟨⟨a, ha⟩⟩ ⟨⟨b, hb⟩⟩ h
  cases show a = b from h
  rfl

/-- **Code determines the expression.**  From the bytes and the constants of a chunk its source is
    found again, up to parentheses and the spelling of literals.  Two sources whose chunks agree in
    every byte and in the bits of every constant are therefore the same in all but these. -/
theorem decompile_of_compile :
    (∀ source c, Chunk.compile source = .ok c →
      ∃ e, Derives .term e (Tokens.ofSource source).body ∧
        (∀ e', Derives .term e' (Tokens.ofSource source).body → e' = e) ∧
        decompile c.code c.constants = some e.formula) ∧
    ∀ source source' c c', Chunk.compile source = .ok c → Chunk.compile source' = .ok c' →
      c.code = c'.code →
      c.constants.values.map Float.toBits = c'.constants.values.map Float.toBits →
      ∀ e e', Derives .term e (Tokens.ofSource source).body →
        Derives .term e' (Tokens.ofSource source').body → e.formula = e'.formula := by
  have hread {source : String} {c : Chunk} {e : Expr} (h : Chunk.compile source = .ok c)
      (he : Derives .term e (Tokens.ofSource source).body) :
      decompile c.code c.constants = some e.formula := by
    rcases compile_eq_ok_iff.1 h with ⟨e', he', -, hnumbers, rfl⟩
    rw [he.unique he']
    exact decompile_chunk hnumbers _
  refine ⟨?_, ?_⟩
  · intro source c h
    rcases compile_eq_ok_iff.1 h with ⟨e, he, -⟩
    exact ⟨e, he, fun e' he' => he'.unique he, hread h he⟩
  · intro source source' c c' h h' hcode hbits e e' he he'
    have hconstants : c.constants = c'.constants :=
      congrArg Pool.mk ((Array.map_inj_right Value.toBits_injective).1 hbits)
    have hformula := hread h he
    rw [hcode, hconstants, hread h' he'] at hformula
    exact (Option.some.inj hformula).symm

/-- Two spellings of one formula; the operand bytes of its constants look like opcodes. -/
theorem decompile_two_spellings :
    ∃ c c' e e', Chunk.compile "-(1.50 + 2) * 6" = .ok c ∧
      Chunk.compile "((-((1.5 + 2.0))) * 6.0)" = .ok c' ∧
      c.code = #[0, 0, 0, 1, 1, 5, 0, 2, 3, 6] ∧
      Derives .term e (Tokens.ofSource "-(1.50 + 2) * 6").body ∧
      Derives .term e' (Tokens.ofSource "((-((1.5 + 2.0))) * 6.0)").body ∧
      decompile c.code c.constants = some (.binary .multiply
        (.negate (.binary .add (.value 1.5) (.value 2))) (.value 6)) ∧
      decompile c.code c.constants = some e.formula ∧ e.formula = e'.formula := by
  have hparts : (Chunk.compile "-(1.50 + 2) * 6").map (fun c => (c.code, c.constants.values)) =
      .ok (#[0, 0, 0, 1, 1, 5, 0, 2, 3, 6], #[1.5, 2, 6]) := by
    decide +kernel
  have hparts' : (Chunk.compile "((-((1.5 + 2.0))) * 6.0)").map
      (fun c => (c.code, c.constants.values)) =
        .ok (#[0, 0, 0, 1, 1, 5, 0, 2, 3, 6], #[1.5, 2, 6]) := by
    decide +kernel
  cases h : Chunk.compile "-(1.50 + 2) * 6" with
  | error error =>
    rw [h] at hparts
    contradiction
  | ok c =>
    cases h' : Chunk.compile "((-((1.5 + 2.0))) * 6.0)" with
    | error error =>
      rw [h'] at hparts'
      contradiction
    | ok c' =>
      rw [h] at hparts
      rw [h'] at hparts'
      obtain ⟨hcode, hvalues⟩ := Prod.mk.inj (Except.ok.inj hparts)
      obtain ⟨hcode', hvalues'⟩ := Prod.mk.inj (Except.ok.inj hparts')
      obtain ⟨e, he, -, hread⟩ := decompile_of_compile.1 _ c h
      obtain ⟨e', he', -⟩ := decompile_of_compile.1 _ c' h'
      have hsame := decompile_of_compile.2 _ _ c c' h h' (hcode.trans hcode'.symm)
        (by rw [hvalues, hvalues']) e e' he he'
      have hformula : decompile c.code c.constants = some (.binary .multiply
          (.negate (.binary .add (.value 1.5) (.value 2))) (.value 6)) := by
        have hconstants : c.constants = ⟨#[1.5, 2, 6]⟩ := congrArg Pool.mk hvalues
        rw [hcode, hconstants]
        decide +kernel
      exact ⟨c, c', e, e', rfl, rfl, hcode, he, he', hformula, hread, hsame⟩

end ArithVM
