import ArithVM.Proofs.Machine.Walk
import ArithVM.Session

/-!
# Histories — many runs of one session

A run reads two things of its session, the options and whether the machine traces, and neither ever
changes.  Whatever was run before, a run therefore comes to what it comes to in a new session, and a
run that never starts the machine leaves it as it was.
-/

namespace ArithVM

/-- A source to be run, and why its listing cannot be written, if it cannot. -/
structure Call where
  source : String
  writeError? : Option String := none

namespace Call

def on (call : Call) (s : Session) : Session.Run :=
  s.run call.source call.writeError?

/-- The source does not compile, or its listing is asked for and cannot be written. -/
def Fails (options : Options) (call : Call) : Prop :=
  (∃ e, Chunk.compile call.source = .error e) ∨
    options.disassemble = true ∧ call.writeError? ≠ none

end Call

theorem Machine.execute_of_tracing {m m' : Machine} (h : m.tracing = m'.tracing) (c : Chunk) :
    m.execute c = m'.execute c := by
  rw [execute, execute, h]

theorem Machine.tracing_execute (m : Machine) (c : Chunk) :
    (m.execute c).machine.tracing = m.tracing := by
  have hrun := walks_runFrom (c := c) (m := { m with stack := [], ip := 0 }) (Nat.zero_le _)
    (Nat.zero_le _)
  exact hrun.2

namespace Session

/-- The session after some calls. -/
def after (s : Session) (calls : List Call) : Session :=
  calls.foldl (fun s call => (call.on s).session) s

/-! ## One run -/

variable {options : Options} {call : Call}

/-- A call that fails has an error of its own, and the session stays as it is. -/
theorem on_of_fails (h : call.Fails options) :
    ∃ e : RunError, (∀ error, e ≠ .runtime error) ∧
      ∀ s : Session, s.options = options → call.on s = ⟨.error e, "", [], s⟩ := by
  cases hcompile : Chunk.compile call.source with
  | error e =>
    refine ⟨.compile e, by simp, ?_⟩
    intro s _
    simp only [Call.on, run, hcompile]
  | ok c =>
    -- The source compiles, so it is the listing that fails.
    obtain ⟨e, he⟩ | ⟨hdisassemble, hwrite⟩ := h
    · rw [hcompile] at he
      contradiction
    · obtain ⟨reason, hreason⟩ := Option.ne_none_iff_exists'.1 hwrite
      refine ⟨.io reason, by simp, ?_⟩
      intro s hs
      simp only [Call.on, run, hcompile, hs, hdisassemble, hreason]

/-- A call that does not fail executes one chunk, whatever the session. -/
theorem on_of_not_fails (h : ¬ call.Fails options) :
    ∃ c, Chunk.compile call.source = .ok c ∧ ∀ s : Session, s.options = options →
      call.on s = ⟨(s.machine.execute c).result.mapError .runtime,
        if options.disassemble then c.listing "code" else "", (s.machine.execute c).trace,
        { s with machine := (s.machine.execute c).machine }⟩ := by
  rw [Call.Fails, not_or, not_and, not_not] at h
  cases hcompile : Chunk.compile call.source with
  | error e => exact absurd ⟨e, hcompile⟩ h.1
  | ok c =>
    refine ⟨c, rfl, ?_⟩
    intro s hs
    simp only [Call.on, run, hcompile, hs]
    split
    next reason hdisassemble hwrite =>
      rw [h.2 hdisassemble] at hwrite
      contradiction
    next => rfl

/-! ## Many runs -/

/-- What a run reads of its session. -/
def Agrees (options : Options) (s : Session) : Prop :=
  s.options = options ∧ s.machine.tracing = options.trace

theorem agrees_on {s : Session} (h : s.Agrees options) (call : Call) :
    (call.on s).session.Agrees options := by
  by_cases hfails : call.Fails options
  · obtain ⟨e, -, hon⟩ := on_of_fails hfails
    rw [hon s h.1]
    exact h
  · obtain ⟨c, -, hon⟩ := on_of_not_fails hfails
    rw [hon s h.1]
    exact ⟨h.1, (s.machine.tracing_execute c).trans h.2⟩

theorem agrees_after {s : Session} (h : s.Agrees options) (calls : List Call) :
    (s.after calls).Agrees options := by
  induction calls generalizing s with
  | nil => exact h
  | cons call calls ih => exact ih (agrees_on h call)

/-- **Runs do not leak.**  After any calls, a call has the result, the listing and the messages that
    it has in a new session with the same options.  If it fails to compile or to write its listing
    the session is left as it was, and otherwise it is left as the new one would be. -/
theorem on_after_eq_on_new (options : Options) (earlier : List Call) (call : Call) :
    (call.on ((new options).after earlier)).result = (call.on (new options)).result ∧
    (call.on ((new options).after earlier)).listing = (call.on (new options)).listing ∧
    (call.on ((new options).after earlier)).trace = (call.on (new options)).trace ∧
    (call.Fails options ↔
      (∃ e, (call.on (new options)).result = .error (.compile e)) ∨
        ∃ reason, (call.on (new options)).result = .error (.io reason)) ∧
    (call.Fails options →
      (call.on ((new options).after earlier)).session = (new options).after earlier) ∧
    (¬ call.Fails options →
      (call.on ((new options).after earlier)).session = (call.on (new options)).session) := by
  have hnew : (new options).Agrees options := ⟨rfl, rfl⟩
  obtain ⟨hoptions, htracing⟩ := agrees_after hnew earlier
  by_cases hfails : call.Fails options
  · obtain ⟨e, he, hon⟩ := on_of_fails hfails
    rw [hon _ hoptions, hon _ rfl]
    refine ⟨rfl, rfl, rfl, ⟨fun _ => ?_, fun _ => hfails⟩, fun _ => rfl, absurd hfails⟩
    cases e with
    | compile e => exact .inl ⟨e, rfl⟩
    | runtime error => exact absurd rfl (he error)
    | io reason => exact .inr ⟨reason, rfl⟩
  · obtain ⟨c, -, hon⟩ := on_of_not_fails hfails
    rw [hon _ hoptions, hon _ rfl]
    have hexecute : ((new options).after earlier).machine.execute c =
        (new options).machine.execute c := Machine.execute_of_tracing htracing c
    rw [hexecute]
    refine ⟨rfl, rfl, rfl, ⟨fun h => absurd h hfails, ?_⟩, fun h => absurd h hfails, fun _ => ?_⟩
    · -- An execution has no error but a fault.
      cases ((new options).machine.execute c).result with
      | error error => rintro (⟨e, he⟩ | ⟨reason, he⟩) <;> cases he
      | ok v => rintro (⟨e, he⟩ | ⟨reason, he⟩) <;> cases he
    · rw [hoptions]
      rfl

/-- Behind a value, a call that fails in each of the two ways, and one that does not. -/
theorem on_after_value :
    ∃ s : Session, s = (new { disassemble := true }).after [⟨"1 2", none⟩, ⟨"3", none⟩] ∧
      (Call.on ⟨"(4", none⟩ s).session = s ∧
      (Call.on ⟨"4", some "full"⟩ s).session = s ∧
      (Call.on ⟨"4", none⟩ s).session =
        (Call.on ⟨"4", none⟩ (new { disassemble := true })).session := by
  have hopen : (Chunk.compile "(4").isOk = false := by decide +kernel
  have hvalue : (Chunk.compile "4").isOk = true := by decide +kernel
  have hfails : Call.Fails { disassemble := true } ⟨"(4", none⟩ := by
    cases h : Chunk.compile "(4" with
    | ok c =>
      rw [h] at hopen
      contradiction
    | error e => exact .inl ⟨e, h⟩
  have hruns : ¬ Call.Fails { disassemble := true } ⟨"4", none⟩ := by
    rintro (⟨e, he⟩ | ⟨-, hwrite⟩)
    · rw [he] at hvalue
      contradiction
    · exact hwrite rfl
  obtain ⟨-, -, -, -, hsame, -⟩ := on_after_eq_on_new { disassemble := true }
    [⟨"1 2", none⟩, ⟨"3", none⟩] ⟨"(4", none⟩
  obtain ⟨-, -, -, -, hsame', -⟩ := on_after_eq_on_new { disassemble := true }
    [⟨"1 2", none⟩, ⟨"3", none⟩] ⟨"4", some "full"⟩
  obtain ⟨-, -, -, -, -, hnew⟩ := on_after_eq_on_new { disassemble := true }
    [⟨"1 2", none⟩, ⟨"3", none⟩] ⟨"4", none⟩
  exact ⟨_, rfl, hsame hfails, hsame' (.inr ⟨rfl, by simp⟩), hnew hruns⟩

end Session

end ArithVM
