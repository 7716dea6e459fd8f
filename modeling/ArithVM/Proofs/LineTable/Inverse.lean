import ArithVM.Proofs.LineTable.Position
import Mathlib.Logic.Function.Basic

/-!
# Positions and offsets — one is found from the other

The line of an offset has a beginning, and the column counts from there, so the offset can be had
back from its position.  Positions stand in the order of their offsets, those inside of a character
and those past the end of the source as well.
-/

namespace ArithVM

open Text

namespace Position

/-- One position stands on an earlier line, or further to the left on the same one. -/
def Before (p q : Position) : Prop :=
  p.line < q.line ∨ p.line = q.line ∧ p.column < q.column

instance (p q : Position) : Decidable (p.Before q) :=
  inferInstanceAs (Decidable (_ ∨ _))

theorem not_before_self (p : Position) : ¬ p.Before p := by
  unfold Before
  omega

end Position

theorem lineFeedsBefore_min (source : String) (offset : Nat) :
    lineFeedsBefore source (min offset source.utf8ByteSize) = lineFeedsBefore source offset := by
  have hlength : source.toUTF8.data.toList.length = source.utf8ByteSize := rfl
  rw [lineFeedsBefore, lineFeedsBefore, ← hlength, List.take_eq_take_min, Nat.min_assoc,
    Nat.min_self, ← List.take_eq_take_min]

theorem lineFeedsBefore_mono (source : String) {first second : Nat} (h : first ≤ second) :
    lineFeedsBefore source first ≤ lineFeedsBefore source second :=
  (List.take_prefix_take_left h).sublist.count_le 10

namespace LineTable

/-! ## Beginnings of lines -/

theorem length_starts (source : String) :
    (ofSource source).starts.length = 1 + source.toList.count '\n' := by
  rw [ofSource, List.length_cons, length_startsAfter, Nat.add_comm]

theorem isSome_start?_iff {source : String} {line : Nat} :
    ((ofSource source).start? line).isSome ↔
      1 ≤ line ∧ line ≤ 1 + source.toList.count '\n' := by
  unfold start?
  by_cases hline : line = 0
  · rw [if_pos hline]
    simp only [Option.isSome_none, Bool.false_eq_true, false_iff]
    omega
  · rw [if_neg hline, isSome_getElem?, length_starts]
    omega

/-- What `takeWhile` takes last stands in the list and satisfies the condition. -/
theorem exists_getElem?_takeWhile {p : Nat → Bool} {starts : List Nat}
    (h : 0 < (starts.takeWhile p).length) :
    ∃ start, starts[(starts.takeWhile p).length - 1]? = some start ∧ p start := by
  have hlast := Nat.sub_lt h Nat.one_pos
  have hfront := List.takeWhile_prefix (l := starts) p
  refine ⟨_, List.getElem?_eq_getElem (Nat.lt_of_lt_of_le hlast hfront.length_le), ?_⟩
  rw [← hfront.getElem hlast]
  exact List.mem_takeWhile_imp (List.getElem_mem hlast)

/-- The line of an offset begins at or before it, and the column counts from there. -/
theorem exists_start?_position (source : String) (offset : Nat) :
    ∃ start, (ofSource source).start? ((ofSource source).position offset).line = some start ∧
      start ≤ offset ∧ ((ofSource source).position offset).column = offset - start + 1 := by
  have hpos : 0 < ((ofSource source).position offset).line := by
    rw [line_position_eq]
    omega
  rcases exists_getElem?_takeWhile hpos with ⟨start, hget, hle⟩
  have hstart : (ofSource source).start? ((ofSource source).position offset).line = some start := by
    rw [start?, if_neg (by omega)]
    exact hget
  refine ⟨start, hstart, of_decide_eq_true hle, ?_⟩
  show offset - ((ofSource source).start? ((ofSource source).position offset).line).getD 0 + 1 = _
  rw [hstart, Option.getD_some]

theorem position_of_start? {source : String} {line start : Nat}
    (h : (ofSource source).start? line = some start) :
    (ofSource source).position start = ⟨line, 1⟩ := by
  have hline : ((ofSource source).position start).line = line := by
    unfold start? at h
    split at h
    · contradiction
    · rw [← searchLine_eq (.hit h)]
      show line - 1 + 1 = line
      omega
  rcases exists_start?_position source start with ⟨start', hstart', -, hcolumn⟩
  rw [hline, h] at hstart'
  rw [← Option.some.inj hstart', Nat.sub_self] at hcolumn
  exact congrArg₂ Position.mk hline hcolumn

/-! ## The order of positions -/

theorem before_position (source : String) {first second : Nat} (h : first < second) :
    ((ofSource source).position first).Before ((ofSource source).position second) := by
  have hle := lineFeedsBefore_mono source (Nat.le_of_lt h)
  by_cases hline : ((ofSource source).position first).line =
      ((ofSource source).position second).line
  · -- On one line both columns count from the same beginning.
    rcases exists_start?_position source first with ⟨start, hstart, hstart_le, hcolumn⟩
    rcases exists_start?_position source second with ⟨start', hstart', -, hcolumn'⟩
    rw [hline, hstart', Option.some.injEq] at hstart
    right
    refine ⟨hline, ?_⟩
    omega
  · left
    rw [line_position_eq, line_position_eq] at hline ⊢
    omega

theorem position_injective (source : String) :
    Function.Injective (ofSource source).position := by
  intro first second heq
  rcases Nat.lt_trichotomy first second with hlt | rfl | hlt
  · have hbefore := before_position source hlt
    rw [heq] at hbefore
    exact absurd hbefore (Position.not_before_self _)
  · rfl
  · have hbefore := before_position source hlt
    rw [heq] at hbefore
    exact absurd hbefore (Position.not_before_self _)

/-- **Positions are exact.**  The line of an offset counts the line feeds in front of it, whatever
    search finds it, and the column leads back to the beginning of that line.  The lines that have
    a beginning are those of the source, each at its own first column.  Of two offsets the smaller
    one stands in front, so no two of them share a position. -/
theorem position_exact (source : String) :
    (∀ offset,
      ((ofSource source).position offset).line =
        1 + lineFeedsBefore source (min offset source.utf8ByteSize) ∧
      (ofSource source).start? ((ofSource source).position offset).line =
        some (offset - (((ofSource source).position offset).column - 1)) ∧
      1 ≤ ((ofSource source).position offset).column ∧
      ((ofSource source).position offset).column - 1 ≤ offset ∧
      ∀ answer, Search (ofSource source).starts offset answer →
        searchLine answer = ((ofSource source).position offset).line) ∧
    (∀ line, ((ofSource source).start? line).isSome ↔
      1 ≤ line ∧ line ≤ 1 + source.toList.count '\n') ∧
    (∀ line start, (ofSource source).start? line = some start →
      (ofSource source).position start = ⟨line, 1⟩) ∧
    (∀ first second, first < second →
      ((ofSource source).position first).Before ((ofSource source).position second)) ∧
    Function.Injective (ofSource source).position := by
  refine ⟨?_, fun _ => isSome_start?_iff, fun _ _ => position_of_start?,
    fun _ _ => before_position source, position_injective source⟩
  intro offset
  rcases exists_start?_position source offset with ⟨start, hstart, hle, hcolumn⟩
  rw [lineFeedsBefore_min, line_position_eq, ← line_position_eq, hstart, hcolumn]
  exact ⟨rfl, congrArg some (by omega), by omega, by omega, fun _ => searchLine_eq⟩

/-- Inside of a character behind an empty line, and past the end of the source. -/
theorem position_exact_inside_character :
    Search (ofSource "\n\nö").starts 3 (.error 3) ∧
      searchLine (.error 3) = ((ofSource "\n\nö").position 3).line ∧
      (ofSource "\n\nö").start? 2 = some 1 ∧ (ofSource "\n\nö").position 1 = ⟨2, 1⟩ ∧
      ((ofSource "\n\nö").position 3).Before ((ofSource "\n\nö").position 9) := by
  rcases position_exact "\n\nö" with ⟨hoffset, -, hstart, hbefore, -⟩
  rcases hoffset 3 with ⟨-, -, -, -, hsearch⟩
  have hmiss : Search (ofSource "\n\nö").starts 3 (.error 3) :=
    .miss (by decide) (by decide) (by decide)
  have hsecond : (ofSource "\n\nö").start? 2 = some 1 := by decide
  exact ⟨hmiss, hsearch _ hmiss, hsecond, hstart 2 1 hsecond, hbefore 3 9 (by decide)⟩

end LineTable

end ArithVM
