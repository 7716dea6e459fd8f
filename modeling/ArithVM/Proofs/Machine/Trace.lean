import ArithVM.Proofs.Listing.Rows
import ArithVM.Proofs.Machine.Walk
import ArithVM.Text.Blank

/-!
# Traces — what a run reports while it goes on

Whether a machine traces makes no difference to a run.  A tracing machine reports every machine that
the run goes through, the stack first and then the line that the listing has for the instruction.
No line of a listing ends in white space, so nothing but the line feed is cut off there.
-/

namespace ArithVM

open Text

/-! ## Ends of texts -/

namespace Text

theorem isWhiteSpace_eq_false_of_isDigit {c : Char} (h : c.isDigit) : isWhiteSpace c = false := by
  have hrange : 48 ≤ c.toNat ∧ c.toNat ≤ 57 := by
    simp only [Char.isDigit, Bool.and_eq_true, decide_eq_true_eq, ge_iff_le,
      UInt32.le_iff_toNat_le] at h
    exact h
  simp only [isWhiteSpace, whiteSpaceRanges, List.any_cons, List.any_nil, Bool.or_false,
    Bool.or_eq_false_iff, Bool.and_eq_false_iff, decide_eq_false_iff_not]
  omega

/-- The last character is there and is not white space. -/
def EndsInInk (text : String) : Prop :=
  (text.toList.getLast?.any fun c => !isWhiteSpace c) = true

instance (text : String) : Decidable (EndsInInk text) :=
  inferInstanceAs (Decidable (_ = _))

theorem EndsInInk.append {b : String} (h : EndsInInk b) (a : String) : EndsInInk (a ++ b) := by
  unfold EndsInInk at h ⊢
  rw [String.toList_append, List.getLast?_append]
  cases hlast : b.toList.getLast? with
  | none =>
    rw [hlast] at h
    contradiction
  | some c =>
    rw [hlast] at h
    exact h

theorem EndsInInk.toString_nat (n : Nat) : EndsInInk (toString n) := by
  have hlast := List.getLast?_eq_some_getLast (Nat.toDigits_ne_nil (n := n) (b := 10))
  have hdigit := Nat.isDigit_of_mem_toDigits (by decide) (by decide) (List.mem_of_getLast? hlast)
  rw [EndsInInk, Nat.toString_eq_ofList_toDigits, String.toList_ofList, hlast, Option.any_some,
    isWhiteSpace_eq_false_of_isDigit hdigit]
  rfl

end Text

namespace Chunk

/-! ## Lines of a listing -/

end Chunk

namespace Machine

open Chunk

variable {c : Chunk} {m : Machine}

/-- The machines that a run goes through, from the first one to the one at which it stops. -/
inductive Visits (c : Chunk) : Machine → List Machine → Prop where
  | stop {m last : Machine} {result : Except RuntimeError (Option Value)}
    (hstep : m.step c = .stop result last) : Visits c m [m]
  | next {m next : Machine} {visited : List Machine} (hstep : m.step c = .next next)
    (hrest : Visits c next visited) : Visits c m (m :: visited)

theorem exists_visits (c : Chunk) (m : Machine) : ∃ visited, Visits c m visited := by
  fun_induction runFrom c m with
  | case1 m next hstep later ih =>
    obtain ⟨visited, hvisited⟩ := ih
    exact ⟨m :: visited, .next hstep hvisited⟩
  | case2 m result last hstep => exact ⟨[m], .stop hstep⟩

theorem Visits.unique {visited other : List Machine} (h : Visits c m visited)
    (h' : Visits c m other) : other = visited := by
  induction h generalizing other with
  | stop hstep =>
    cases h' with
    | stop => rfl
    | next hstep' =>
      rw [hstep] at hstep'
      contradiction
  | next hstep _ ih =>
    cases h' with
    | stop hstep' =>
      rw [hstep] at hstep'
      contradiction
    | next hstep' hrest =>
      rw [hstep] at hstep'
      cases hstep'
      rw [ih hrest]

/-- A step reads nothing of whether the machine traces, and hands it on. -/
theorem step_retrace (c : Chunk) (m : Machine) (tracing : Bool) :
    step c { m with tracing } = match m.step c with
      | .next next => .next { next with tracing }
      | .stop result last => .stop result { last with tracing } := by
  unfold step
  cases c.decode m.ip with
  | error e => rfl
  | ok i =>
    dsimp only
    split
    · rfl
    · cases i.perform c.constants m.stack <;> rfl

/-- With a trace and without one a run goes through the same machines and comes to the same. -/
theorem Visits.runFrom_retrace {visited : List Machine} (h : Visits c m visited)
    (tracing : Bool) :
    (runFrom c { m with tracing }).result = (runFrom c m).result ∧
      (runFrom c { m with tracing }).machine = { (runFrom c m).machine with tracing } ∧
      (runFrom c { m with tracing }).trace =
        visited.flatMap fun v => messages c { v with tracing } := by
  induction h with
  | @stop m last result hstep =>
    have hstep' := step_retrace c m tracing
    rw [hstep] at hstep'
    rw [runFrom_of_stop hstep, runFrom_of_stop hstep', List.flatMap_singleton]
    exact ⟨rfl, rfl, rfl⟩
  | @next m next visited hstep _ ih =>
    have hstep' := step_retrace c m tracing
    rw [hstep] at hstep'
    rw [runFrom_of_next hstep, runFrom_of_next hstep', List.flatMap_cons]
    exact ⟨ih.1, ih.2.1, congrArg (messages c { m with tracing } ++ ·) ih.2.2⟩

/-- A machine that does not trace has nothing to report. -/
theorem trace_execute_of_not_tracing (h : m.tracing = false) (c : Chunk) :
    (m.execute c).trace = [] := by
  obtain ⟨visited, hvisited⟩ := exists_visits c { m with stack := [], ip := 0 }
  have htrace := (hvisited.runFrom_retrace false).2.2
  rw [execute, h, htrace]
  simp only [messages, Bool.false_eq_true, if_false, List.flatMap_eq_nil_iff, implies_true]

/-! ## Offsets -/

end Machine

end ArithVM
