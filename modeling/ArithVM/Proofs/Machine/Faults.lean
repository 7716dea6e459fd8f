import ArithVM.Proofs.Chunk.History
import ArithVM.Proofs.Machine.Walk
import ArithVM.Report

/-!
# Faults — the lines that runs are stopped with

A fault lies at an entry of the code, and its line is the line of that entry.  Only where the code is
at its end without a return there is no entry left; that fault has line zero, which no byte has.
-/

namespace ArithVM

open Chunk

namespace Chunk

/-- The lines of a chunk are those that it was written with. -/
theorem exists_call_of_mem_lines {calls : List Addition} {line : Nat}
    (h : line ∈ (empty.after calls).lines) : ∃ a ∈ calls, a.line? = some line := by
  obtain ⟨i, hi, hline⟩ := exists_lt_of_mem_lines (size_lines_after calls) h
  obtain ⟨earlier, a, later, line', rfl, -, -, ha, hline'⟩ := exists_call_of_lt hi
  rw [hline] at hline'
  cases hline'
  exact ⟨a, by simp, ha⟩

end Chunk

namespace Machine

/-- A walk comes to an error at one of its entries, or behind all of them for lack of a return. -/
theorem Walks.place_of_error {c : Chunk} {entries : List (Nat × Except DecodeError Instruction)}
    {stack : Stack} {ending : Ending} (h : Walks c entries stack ending) {e : RuntimeError}
    (he : ending.result = .error e) :
    (e.fault ≠ .missingReturn ∧ e.offset ∈ entries.map Prod.fst ∧
        e.line = (c.line? e.offset).getD 0) ∨
      e = ⟨.missingReturn, c.size, (c.line? c.size).getD 0⟩ := by
  induction h with
  | ret => contradiction
  | effect _ _ ih =>
    obtain ⟨hfault, hmem, hline⟩ | hend := ih he
    · exact .inl ⟨hfault, List.mem_cons_of_mem _ hmem, hline⟩
    · exact .inr hend
  | faults hi =>
    cases he
    refine .inl ⟨?_, List.mem_cons_self, rfl⟩
    cases hi <;> nofun
  | unknownOpcode =>
    cases he
    exact .inl ⟨nofun, List.mem_cons_self, rfl⟩
  | missingOperand =>
    cases he
    exact .inl ⟨nofun, List.mem_cons_self, rfl⟩
  | missingReturn =>
    cases he
    exact .inr rfl

theorem place_of_execute {c : Chunk} {m : Machine} {e : RuntimeError}
    (h : (m.execute c).result = .error e) :
    (e.fault ≠ .missingReturn ∧ e.offset ∈ c.walk.map Prod.fst ∧
        e.line = (c.line? e.offset).getD 0) ∨
      e = ⟨.missingReturn, c.size, (c.line? c.size).getD 0⟩ := by
  have hwalks := (walks_runFrom (c := c) (m := { m with stack := [], ip := 0 }) (Nat.zero_le _)
    (Nat.zero_le _)).1
  exact hwalks.place_of_error h

/-- **Lines of faults.**  A run of a chunk that was written with lines from one on is stopped with a
    line of the code, the one of the entry that faults, unless it is for lack of a return: then the
    line is zero, and so is the line of the report. -/
theorem line_mem_lines_iff {calls : List Addition}
    (hcalls : ∀ a ∈ calls, ∀ line, a.line? = some line → 1 ≤ line) {m : Machine}
    {e : RuntimeError} (h : (m.execute (empty.after calls)).result = .error e) :
    (e.line ∈ (empty.after calls).lines ↔ e.fault ≠ .missingReturn) ∧
    (e.fault ≠ .missingReturn → e.offset ∈ (empty.after calls).walk.map Prod.fst ∧
      (empty.after calls).line? e.offset = some e.line ∧ 1 ≤ e.line) ∧
    (e.fault = .missingReturn → e.offset = (empty.after calls).size ∧ e.line = 0) ∧
    e.report.line? = some e.line := by
  have hsize := size_lines_after calls
  have hpos : ∀ line ∈ (empty.after calls).lines, 1 ≤ line := by
    intro line hmem
    obtain ⟨a, ha, hline⟩ := exists_call_of_mem_lines hmem
    exact hcalls a ha line hline
  obtain ⟨hfault, hmem, hline⟩ | rfl := place_of_execute h
  · -- An entry begins with a byte, and every byte has a line that it was written with.
    obtain ⟨entry, hentry, hoffset⟩ := List.mem_map.1 hmem
    have hlt : e.offset < (empty.after calls).size := hoffset ▸ (mem_walkFrom hentry).1
    obtain ⟨line, hlines, hbyte⟩ := exists_line_of_lt hsize hlt
    rw [hbyte, Option.getD_some] at hline
    subst hline
    exact ⟨iff_of_true hlines hfault, fun _ => ⟨hmem, hbyte, hpos _ hlines⟩,
      fun hmissing => absurd hmissing hfault, rfl⟩
  · -- Behind the last byte there is no line, and zero stands in for it.
    have hnone : (empty.after calls).line? (empty.after calls).size = none :=
      Array.getElem?_eq_none (Nat.le_of_eq hsize)
    rw [hnone, Option.getD_none]
    exact ⟨iff_of_false (fun hzero => Nat.lt_irrefl 0 (hpos 0 hzero)) (fun hfault => hfault rfl),
      fun hfault => absurd rfl hfault, fun _ => ⟨rfl, rfl⟩, rfl⟩

/-- An operator on the fourth line that misses an operand. -/
theorem line_mem_lines_of_underflow :
    ∃ (c : Chunk) (e : RuntimeError),
      c = empty.after [.writeConstant 1.5 3, .writeOp (.operator .add) 4] ∧
      (execute {} c).result = .error e ∧ e = ⟨.stackUnderflow, 2, 4⟩ ∧ e.line ∈ c.lines ∧
      c.line? 2 = some 4 ∧ e.report.line? = some 4 := by
  have hcalls : ∀ a ∈ [Addition.writeConstant 1.5 3, .writeOp (.operator .add) 4],
      ∀ line, a.line? = some line → 1 ≤ line := by
    simp [Addition.line?]
  have hresult : (execute {} (empty.after
      [.writeConstant 1.5 3, .writeOp (.operator .add) 4])).result =
        .error ⟨.stackUnderflow, 2, 4⟩ := by
    decide +kernel
  obtain ⟨hmem, hplace, -, hreport⟩ := line_mem_lines_iff hcalls hresult
  exact ⟨_, _, rfl, hresult, rfl, hmem.2 nofun, (hplace nofun).2.1, hreport⟩

/-- Behind a constant the code is at its end, and no byte of it has the line of that fault. -/
theorem line_notMem_lines_of_missingReturn :
    ∃ (c : Chunk) (e : RuntimeError), c = empty.after [.writeConstant 1.5 1] ∧ 0 < c.size ∧
      (execute {} c).result = .error e ∧ e.line ∉ c.lines ∧ e.report.line? = some 0 := by
  refine ⟨_, ⟨.missingReturn, 2, 0⟩, rfl, ?_, ?_, ?_, rfl⟩
  all_goals decide +kernel

end Machine

end ArithVM
