import ArithVM.Proofs.Compile.Acceptance

/-!
# Post-order — the code and the lines of a source

The chunk of a source that compiles is the tree of its tokens in post-order, with a return behind
it.  Number tokens take the constants in the order of the source, and every byte has the line of
the token that it was made for.
-/

namespace ArithVM

open Chunk

namespace Chunk

/-- The constants that some instructions push, by position, each with the line of its
    instruction. -/
def pushes (code : List (Instruction × Nat)) : List (Nat × Nat) :=
  code.filterMap fun placed => placed.1.operand?.map fun index => (index.toNat, placed.2)

theorem pushes_append (code more : List (Instruction × Nat)) :
    pushes (code ++ more) = pushes code ++ pushes more :=
  List.filterMap_append

end Chunk

/-- The code of an expression pushes its numbers from left to right.  The positions count up from
    the first free one. -/
theorem Expr.pushes_postorder (e : Expr) {first : Nat}
    (h : first + e.numbers.length ≤ maxConstants) :
    pushes (e.postorder first) = (e.numbers.zipIdx first).map fun (t, i) => (i, t.line) := by
  induction e generalizing first with
  | number literal =>
    have hindex : (UInt8.ofNat first).toNat = first := toNat_ofNat_of_lt_maxConstants h
    change [((UInt8.ofNat first).toNat, literal.line)] = [(first, literal.line)]
    rw [hindex]
  | group inner ih => exact ih h
  | negate sign operand ih =>
    rw [postorder, pushes_append, ih h]
    exact List.append_nil _
  | binary op sign left right ihleft ihright =>
    rw [numbers, List.length_append, ← Nat.add_assoc] at h
    rw [postorder, pushes_append, pushes_append, ihleft (by omega), ihright h, numbers,
      List.zipIdx_append, List.map_append, List.append_assoc]
    exact congrArg _ (List.append_nil _)

/-- **Code generation.**  The walk over the chunk of a source meets the tree of its tokens in
    post-order, then a return, and nothing else, each instruction with its line on all of its
    bytes.  The `i`-th number token is pushed by the instruction with operand `i` and line of that
    token, and its value is the `i`-th constant. -/
theorem walk_of_compile {source : String} {c : Chunk} (h : Chunk.compile source = .ok c) :
    ∃ e, Derives .term e (Tokens.ofSource source).body ∧
      (∀ e', Derives .term e' (Tokens.ofSource source).body → e' = e) ∧
      List.Forall₂ c.Shows c.walk
        (e.postorder 0 ++ [(.ret, (Tokens.ofSource source).finish.line)]) ∧
      c.lines.size = c.size ∧
      pushes (e.postorder 0) =
        (((Tokens.ofSource source).body.filter (·.kind = .number)).zipIdx.map
          fun (t, i) => (i, t.line)) ∧
      c.constants.values.toList =
        ((Tokens.ofSource source).body.filter (·.kind = .number)).map Token.value := by
  rcases compile_eq_ok_iff.1 h with ⟨e, he, -, hnumbers, rfl⟩
  have hfirst : 0 + e.numbers.length ≤ maxConstants := by
    rw [Nat.zero_add]
    exact hnumbers
  refine ⟨e, he, fun e' he' => he'.unique he, walk_assemble _ _, ?_, ?_, ?_⟩
  · rw [Expr.chunk, size_lines_assemble, size_assemble]
  · rw [e.pushes_postorder hfirst, he.numbers_eq]
  · rw [← he.numbers_eq]
    rfl

/-- The sign, the operands and the end stand on four lines. -/
theorem walk_over_four_lines :
    ∃ c, Chunk.compile "1\n-\n2\n" = .ok c ∧
      ∃ e, Derives .term e (Tokens.ofSource "1\n-\n2\n").body ∧
        (∀ e', Derives .term e' (Tokens.ofSource "1\n-\n2\n").body → e' = e) ∧
        List.Forall₂ c.Shows c.walk (e.postorder 0 ++ [(.ret, 4)]) ∧
        c.lines.size = c.size ∧
        pushes (e.postorder 0) = [(0, 1), (1, 3)] ∧
        c.constants.values.toList = [Value.ofLiteral "1", Value.ofLiteral "2"] := by
  have hfinish : (Tokens.ofSource "1\n-\n2\n").finish.line = 4 := by decide +kernel
  have hnumbers : (Tokens.ofSource "1\n-\n2\n").body.filter (·.kind = .number) =
      [⟨.number, "1", ⟨0, 1⟩, 1⟩, ⟨.number, "2", ⟨4, 5⟩, 3⟩] := by
    decide +kernel
  have hok : (Chunk.compile "1\n-\n2\n").isOk = true := by decide +kernel
  cases h : Chunk.compile "1\n-\n2\n" with
  | ok c =>
    rcases walk_of_compile h with ⟨e, he, hunique, hwalk, hlines, hpushes, hconstants⟩
    rw [hfinish] at hwalk
    rw [hnumbers] at hpushes hconstants
    exact ⟨c, rfl, e, he, hunique, hwalk, hlines, hpushes, hconstants⟩
  | error error =>
    rw [h] at hok
    contradiction

end ArithVM
