import ArithVM.Proofs.Machine.Evaluation
import ArithVM.Session

/-!
# Safety — compiled code does not fault

While compiled code runs, the stack holds no more values than the expression has levels, nor more
than it has numbers.  No instruction of it faults, so a source that compiles has a value.
-/

namespace ArithVM

open Chunk

namespace Machine

/-- The machines that a run of a chunk goes through, from the first one on. -/
inductive Reaches (c : Chunk) (first : Machine) : Machine → Prop where
  | first : Reaches c first first
  | next {m next : Machine} (h : Reaches c first m) (hstep : m.step c = .next next) :
    Reaches c first next

/-- A run that is known to its end goes through no other machines. -/
theorem Steps.of_reaches {c : Chunk} {bound : Nat} {first m last : Machine}
    (h : Steps c bound first last) (hfirst : first.stack.length ≤ bound)
    {result : Except RuntimeError (Option Value)} {stopped : Machine}
    (hlast : last.step c = .stop result stopped) (hreaches : Reaches c first m) :
    m.stack.length ≤ bound ∧ Steps c bound m last := by
  -- A machine has one next machine, so the run cannot leave the way to `last`.
  induction hreaches with
  | first => exact ⟨hfirst, h⟩
  | next _ hstep ih =>
    cases ih.2 with
    | refl =>
      rw [hlast] at hstep
      contradiction
    | cons hstep' hbound hrest =>
      rw [hstep] at hstep'
      cases hstep'
      exact ⟨hbound, hrest⟩

theorem Steps.next_or_eq {c : Chunk} {bound : Nat} {m last : Machine} (h : Steps c bound m last) :
    (∃ next, m.step c = .next next) ∨ m = last := by
  cases h with
  | refl => exact .inr rfl
  | cons hstep => exact .inl ⟨_, hstep⟩

theorem reaches_chunk {e : Expr} (hlevel : e.level ≤ maxLevels)
    (hnumbers : e.numbers.length ≤ maxConstants) (last : Nat) {m m' : Machine}
    (hreaches : Reaches (e.chunk last) { m with stack := [], ip := 0 } m') :
    m'.stack.length ≤ min 200 (e.chunk last).constants.size ∧
      ((∃ next, m'.step (e.chunk last) = .next next) ∨
        ∃ v stopped, m'.step (e.chunk last) = .stop (.ok (some v)) stopped) := by
  have hsize : (e.chunk last).constants.size = e.numbers.length :=
    List.length_map ..
  -- What the parser counts bounds the height although left operands are not counted: a left
  -- operand is down to one value before the right one begins.
  have hheight : e.height ≤ min 200 (e.chunk last).constants.size := by
    have hle := e.height_le_level
    have hle' := e.height_le_length_numbers
    rw [hsize]
    exact Nat.le_min.2 ⟨Nat.le_trans hle hlevel, hle'⟩
  have hbound : min 200 (e.chunk last).constants.size ≤ Fault.maxStack :=
    Nat.le_trans (Nat.min_le_left ..) (by decide)
  have hsteps := steps_chunk hnumbers last hbound hheight m
  -- The way ends in front of the return, with the value alone on the stack.
  have hstop := step_of_ret (m := { m with stack := [e.eval], ip := extent (e.postorder 0) })
    (decode_assemble (e.postorder 0) [] (.ret, last) (e.numbers.map Token.value))
  obtain ⟨hlength, hrest⟩ := hsteps.of_reaches (Nat.zero_le _) hstop hreaches
  refine ⟨hlength, ?_⟩
  obtain hnext | rfl := hrest.next_or_eq
  · exact .inl hnext
  · exact .inr ⟨_, _, hstop⟩

end Machine

namespace Session

theorem result_run_of_error {source : String} {error : CompileError}
    (h : Chunk.compile source = .error error) (s : Session) (writeError? : Option String) :
    (s.run source writeError?).result = .error (.compile error) := by
  simp only [run, h]

/-- A source that compiles has a value, unless its listing is asked for and cannot be written. -/
theorem result_run_of_ok {source : String} {c : Chunk} (h : Chunk.compile source = .ok c)
    (s : Session) (writeError? : Option String) :
    (∃ v, (s.run source writeError?).result = .ok (some v)) ∨
      s.options.disassemble = true ∧
        ∃ reason, writeError? = some reason ∧
          (s.run source writeError?).result = .error (.io reason) := by
  rcases compile_eq_ok_iff.1 h with ⟨e, -, -, hnumbers, rfl⟩
  have hvalue :=
    (Machine.execute_chunk hnumbers (Tokens.ofSource source).finish.line s.machine).1
  simp only [run, h]
  -- Only a listing that cannot be written keeps the code from being executed.
  split
  next hdisassemble => exact .inr ⟨hdisassemble, _, rfl, rfl⟩
  next =>
    refine .inl ⟨e.eval, ?_⟩
    simp only [hvalue]
    rfl

end Session

theorem interpret_of_ok {source : String} {c : Chunk} (h : Chunk.compile source = .ok c) :
    interpret source = .ok := by
  obtain ⟨v, hv⟩ | ⟨hdisassemble, -⟩ := Session.result_run_of_ok h (.new {}) none
  · simp only [interpret, hv]
  · contradiction

theorem interpret_of_error {source : String} {error : CompileError}
    (h : Chunk.compile source = .error error) : interpret source = .compileError := by
  simp only [interpret, Session.result_run_of_error h]
  rfl

/-- **Compiled code is safe.**  At every step of a run the stack of a compiled source is bounded by
    the levels and by the constants, and no instruction faults.  A source therefore fails to
    compile or has a value, in every session. -/
theorem safe_of_compile (source : String) :
    (∀ c, Chunk.compile source = .ok c →
      ∀ m m' : Machine, Machine.Reaches c { m with stack := [], ip := 0 } m' →
        m'.stack.length ≤ min 200 c.constants.size ∧
          ((∃ next, m'.step c = .next next) ∨
            ∃ v stopped, m'.step c = .stop (.ok (some v)) stopped)) ∧
    (interpret source = .ok ↔ ∃ c, Chunk.compile source = .ok c) ∧
    (interpret source = .compileError ↔ ∃ error, Chunk.compile source = .error error) ∧
    interpret source ≠ .runtimeError ∧
    ∀ (s : Session) (writeError? : Option String),
      (∀ error, (s.run source writeError?).result ≠ .error (.runtime error)) ∧
        (s.run source writeError?).result ≠ .ok none := by
  cases h : Chunk.compile source with
  | error error =>
    have hinterpret := interpret_of_error h
    have hresult := Session.result_run_of_error h
    simp [hinterpret, hresult]
  | ok c =>
    refine ⟨?_, ?_, ?_, ?_, ?_⟩
    · intro c' hc m m' hreaches
      cases hc
      rcases compile_eq_ok_iff.1 h with ⟨e, -, hlevel, hnumbers, rfl⟩
      exact Machine.reaches_chunk hlevel hnumbers _ hreaches
    · simp [interpret_of_ok h]
    · simp [interpret_of_ok h]
    · simp [interpret_of_ok h]
    · intro s writeError?
      obtain ⟨v, hv⟩ | ⟨-, reason, -, hreason⟩ := Session.result_run_of_ok h s writeError?
      · simp [hv]
      · simp [hreason]

/-- The bound is reached where the innermost operand lies on top of the two left ones. -/
theorem safe_with_three_operands :
    ∃ (c : Chunk) (m : Machine), Chunk.compile "1 - (2 - 3)" = .ok c ∧
      Machine.Reaches c {} m ∧ m.stack.length = 3 ∧ c.constants.size = 3 ∧
      m.stack.length ≤ min 200 c.constants.size ∧
      ((∃ next, m.step c = .next next) ∨ ∃ v stopped, m.step c = .stop (.ok (some v)) stopped) := by
  have hparts : (Chunk.compile "1 - (2 - 3)").map
      (fun c => (c.code.toList, c.constants.values.toList.length)) =
        .ok ([0, 0, 0, 1, 0, 2, 2, 2, 6], 3) := by
    decide +kernel
  cases h : Chunk.compile "1 - (2 - 3)" with
  | error error =>
    rw [h] at hparts
    contradiction
  | ok c =>
    rw [h] at hparts
    obtain ⟨⟨code⟩, lines, ⟨⟨values⟩⟩⟩ := c
    obtain ⟨hcode, hvalues⟩ := Prod.mk.inj (Except.ok.inj hparts)
    obtain rfl : code = [0, 0, 0, 1, 0, 2, 2, 2, 6] := hcode
    obtain ⟨v₁, v₂, v₃, rfl⟩ := List.length_eq_three.1 hvalues
    have hreaches : Machine.Reaches
        ⟨⟨[0, 0, 0, 1, 0, 2, 2, 2, 6]⟩, lines, ⟨⟨[v₁, v₂, v₃]⟩⟩⟩ {} ⟨[v₃, v₂, v₁], 6, false⟩ :=
      .next (m := ⟨[v₂, v₁], 4, false⟩) (.next (m := ⟨[v₁], 2, false⟩) (.next .first rfl) rfl) rfl
    obtain ⟨hbound, hstep⟩ := (safe_of_compile _).1 _ h {} _ hreaches
    exact ⟨_, _, rfl, hreaches, rfl, rfl, hbound, hstep⟩

end ArithVM
