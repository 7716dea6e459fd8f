import ArithVM.Proofs.Chunk.History
import ArithVM.Proofs.Compile.Acceptance
import ArithVM.Proofs.Listing.Reading

/-!
# Bars — the lines that a listing tells

Read from the top, a bar stands for the line of the row above.  It is put where the byte in front has
the line, and that byte may be an operand with a line of its own.  A listing therefore tells the
right lines exactly if no operand has the line of the next instruction without its opcode having it,
and of compiled sources it always does.
-/

namespace ArithVM

open Text

namespace Listing

/-- The line that a row tells below a row that tells `above?`. -/
def line? (above? : Option Nat) (row : List Char) : Option Nat :=
  if mark row = ['|'] then above? else number? (mark row)

/-- The lines that rows tell one below the other. -/
def linesFrom (above? : Option Nat) : List (List Char) → List (Option Nat)
  | [] => []
  | row :: rows => line? above? row :: linesFrom (line? above? row) rows

/-- The lines that are listed under the heading with this name. -/
def lines (name listing : String) : List (Option Nat) :=
  linesFrom none (rows name listing)

/-- Which of the rows under the heading with this name have a bar. -/
def bars (name listing : String) : List Bool :=
  (rows name listing).map fun row => mark row = ['|']

/-- Which lines are the same as the one in front of them. -/
def repeats (above? : Option Nat) : List (Option Nat) → List Bool
  | [] => []
  | line? :: lines => decide (above? = line?) :: repeats line? lines

end Listing

namespace Chunk

variable {c : Chunk}

/-- The lines of the entries, of the first byte of each. -/
def entryLines (c : Chunk) : List (Option Nat) :=
  c.walk.map fun entry => c.line? entry.1

/-- Read from the top, the listing tells the line of every entry. -/
def TellsLines (c : Chunk) (name : String) : Prop :=
  Listing.lines name (c.listing name) = c.entryLines

/-- The rows with a bar are those of the entries that have the line of the entry in front. -/
def BarsRepeats (c : Chunk) (name : String) : Prop :=
  Listing.bars name (c.listing name) = Listing.repeats none c.entryLines

instance (name : String) : Decidable (c.TellsLines name) :=
  inferInstanceAs (Decidable (_ = _))

instance (name : String) : Decidable (c.BarsRepeats name) :=
  inferInstanceAs (Decidable (_ = _))

/-! ## One row -/

theorem lineMark_eq_bar_iff {offset line : Nat} (h : c.line? offset = some line) :
    c.lineMark offset = ['|'] ↔ 0 < offset ∧ c.line? (offset - 1) = c.line? offset := by
  simp only [lineMark, h]
  split
  next hsame => exact iff_of_true rfl hsame
  next hother =>
    refine iff_of_false ?_ hother
    intro hbar
    have hmem : '|' ∈ (toString line).toList := by rw [hbar]; exact List.mem_singleton_self _
    exact (Decimal.isDigits_toString line).notMem (by decide) hmem

/-- A row without a bar tells its own line. -/
theorem line?_rowText {offset line : Nat} (h : c.line? offset = some line)
    (above? : Option Nat) :
    Listing.line? above? (c.rowText offset).toList =
      if 0 < offset ∧ c.line? (offset - 1) = c.line? offset then above? else c.line? offset := by
  rw [Listing.line?, mark_rowText]
  simp only [lineMark_eq_bar_iff h]
  split
  next => rfl
  next hother =>
    rw [h] at hother ⊢
    simp only [lineMark, h, if_neg hother]
    exact Listing.number?_toString line

/-! ## Rows in order -/

/-- The row for `offset`, below the one for `above`, tells the right line. -/
def Tells (c : Chunk) (above offset : Nat) : Prop :=
  c.line? (offset - 1) = c.line? offset → c.line? above = c.line? offset

/-- The row for `offset` has a bar exactly if `above` has the same line. -/
def Repeats (c : Chunk) (above offset : Nat) : Prop :=
  c.line? (offset - 1) = c.line? offset ↔ c.line? above = c.line? offset

theorem linesFrom_eq_iff (hlines : c.lines.size = c.size) {above : Nat} {offsets : List Nat}
    (h : ∀ offset ∈ offsets, 0 < offset ∧ offset < c.size) :
    Listing.linesFrom (c.line? above) (offsets.map fun offset => (c.rowText offset).toList) =
        offsets.map c.line? ↔
      (above :: offsets).IsChain c.Tells := by
  induction offsets generalizing above with
  | nil => simp [Listing.linesFrom]
  | cons offset offsets ih =>
    obtain ⟨⟨hpos, hlt⟩, hrest⟩ := List.forall_mem_cons.1 h
    obtain ⟨line, -, hline⟩ := exists_line_of_lt hlines hlt
    rw [List.map_cons, List.map_cons, Listing.linesFrom, line?_rowText hline,
      List.isChain_cons_cons, List.cons_eq_cons, ← ih hrest]
    -- With a bar the line is the one above, so the rest is read from there; without a bar the row
    -- tells its own line whatever is above it.
    by_cases hbar : c.line? (offset - 1) = c.line? offset
    · rw [if_pos ⟨hpos, hbar⟩]
      constructor
      · rintro ⟨hfirst, hmore⟩
        rw [hfirst] at hmore
        exact ⟨fun _ => hfirst, hmore⟩
      · rintro ⟨htells, hmore⟩
        rw [htells hbar]
        exact ⟨rfl, hmore⟩
    · rw [if_neg fun hboth => hbar hboth.2]
      exact ⟨fun hboth => ⟨fun hsame => absurd hsame hbar, hboth.2⟩, fun hboth => ⟨rfl, hboth.2⟩⟩

theorem map_bar_eq_iff (hlines : c.lines.size = c.size) {above : Nat} {offsets : List Nat}
    (h : ∀ offset ∈ offsets, 0 < offset ∧ offset < c.size) :
    (offsets.map fun offset => decide (c.lineMark offset = ['|'])) =
        Listing.repeats (c.line? above) (offsets.map c.line?) ↔
      (above :: offsets).IsChain c.Repeats := by
  induction offsets generalizing above with
  | nil => simp [Listing.repeats]
  | cons offset offsets ih =>
    obtain ⟨⟨hpos, hlt⟩, hrest⟩ := List.forall_mem_cons.1 h
    obtain ⟨line, -, hline⟩ := exists_line_of_lt hlines hlt
    rw [List.isChain_cons_cons, ← ih hrest, List.map_cons, List.map_cons, Listing.repeats,
      List.cons_eq_cons, decide_eq_decide, lineMark_eq_bar_iff hline, and_iff_right hpos]
    rfl

/-! ## Walks -/

variable {R : Nat → Nat → Prop}

/-- Only a constant has its next entry further away than one byte. -/
theorem related_next_iff (hR : ∀ offset, R offset (offset + 1)) {offset : Nat}
    (h : offset < c.size) :
    (c.next offset < c.size → R offset (c.next offset)) ↔
      ∀ index, c.decode offset = .ok (.constant index) → offset + 2 < c.size →
        R offset (offset + 2) := by
  unfold next
  cases hdecode : c.decode offset with
  | ok i =>
    cases i with
    | constant index => exact ⟨fun hnext _ _ => hnext, fun hnext => hnext index rfl⟩
    | operator op => exact iff_of_true (fun _ => hR offset) nofun
    | negate => exact iff_of_true (fun _ => hR offset) nofun
    | ret => exact iff_of_true (fun _ => hR offset) nofun
  | error e =>
    cases e with
    | unknownOpcode byte place => exact iff_of_true (fun _ => hR offset) nofun
    | missingOperand op place => exact iff_of_true (fun hlt => absurd hlt (Nat.lt_irrefl _)) nofun
    | outOfBounds place => exact absurd hdecode (decode_ne_outOfBounds h place)

theorem isChain_walkFrom_cons {offset : Nat} :
    (offset :: (c.walkFrom (c.next offset)).map Prod.fst).IsChain R ↔
      (c.next offset < c.size → R offset (c.next offset)) ∧
        ((c.walkFrom (c.next offset)).map Prod.fst).IsChain R := by
  by_cases hnext : c.next offset < c.size
  · rw [walkFrom, dif_pos hnext, List.map_cons, List.isChain_cons_cons]
    simp only [hnext, forall_const]
  · rw [walkFrom, dif_neg hnext]
    simp [hnext]

/-- What holds of every byte and the next one holds of all neighbours in a walk if it holds across
    the operands. -/
theorem isChain_walkFrom_iff (hR : ∀ offset, R offset (offset + 1)) (offset : Nat) :
    ((c.walkFrom offset).map Prod.fst).IsChain R ↔
      ∀ place index, (place, .ok (.constant index)) ∈ c.walkFrom offset → place + 2 < c.size →
        R place (place + 2) := by
  fun_induction walkFrom c offset with
  | case1 offset hlt ih =>
    rw [List.map_cons, isChain_walkFrom_cons, related_next_iff hR hlt, ih]
    constructor
    · rintro ⟨hfirst, hrest⟩ place index hmem
      obtain heq | hmem := List.mem_cons.1 hmem
      · obtain ⟨rfl, hdecode⟩ := Prod.mk.inj heq
        exact hfirst index hdecode.symm
      · exact hrest place index hmem
    · intro hall
      refine ⟨fun index hdecode => ?_, fun place index hmem => ?_⟩
      · exact hall offset index (by rw [hdecode]; exact List.mem_cons_self)
      · exact hall place index (List.mem_cons_of_mem _ hmem)
  | case2 offset hge => simp

/-- The first entry of a walk begins with the code, and every other one behind some byte. -/
theorem offsets_walk (h : 0 < c.size) :
    ∃ offsets, c.walk.map Prod.fst = 0 :: offsets ∧
      ∀ offset ∈ offsets, 0 < offset ∧ offset < c.size := by
  refine ⟨(c.walkFrom (c.next 0)).map Prod.fst, ?_, ?_⟩
  · rw [walk, walkFrom, dif_pos h, List.map_cons]
  · intro offset hmem
    obtain ⟨entry, hentry, rfl⟩ := List.mem_map.1 hmem
    have hle := (tiles_walkFrom (next_le h)).le_offset entry hentry
    exact ⟨Nat.lt_of_lt_of_le (lt_next h) hle, (mem_walkFrom hentry).1⟩

theorem entryLines_eq (c : Chunk) : c.entryLines = (c.walk.map Prod.fst).map c.line? := by
  rw [entryLines, List.map_map]
  rfl

theorem tellsLines_iff_isChain (hlines : c.lines.size = c.size) (name : String) :
    c.TellsLines name ↔ (c.walk.map Prod.fst).IsChain c.Tells := by
  have hrows : Listing.rows name (c.listing name) =
      (c.walk.map Prod.fst).map fun offset => (c.rowText offset).toList := by
    rw [Listing.rows_listing, List.map_map]
    rfl
  rw [TellsLines, Listing.lines, hrows, entryLines_eq]
  by_cases hsize : 0 < c.size
  · obtain ⟨offsets, hoffsets, hbehind⟩ := offsets_walk hsize
    obtain ⟨line, -, hline⟩ := exists_line_of_lt hlines hsize
    have hfirst : ¬ (0 < 0 ∧ c.line? (0 - 1) = c.line? 0) := fun h => Nat.lt_irrefl 0 h.1
    rw [hoffsets, List.map_cons, List.map_cons, Listing.linesFrom, line?_rowText hline,
      if_neg hfirst, List.cons_eq_cons, linesFrom_eq_iff hlines hbehind]
    exact and_iff_right rfl
  · rw [walk, walkFrom, dif_neg hsize]
    simp [Listing.linesFrom]

theorem barsRepeats_iff_isChain (hlines : c.lines.size = c.size) (name : String) :
    c.BarsRepeats name ↔ (c.walk.map Prod.fst).IsChain c.Repeats := by
  have hbars : Listing.bars name (c.listing name) =
      (c.walk.map Prod.fst).map fun offset => decide (c.lineMark offset = ['|']) := by
    rw [Listing.bars, Listing.rows_listing, List.map_map, List.map_map]
    simp only [Function.comp_def, mark_rowText]
  rw [BarsRepeats, hbars, entryLines_eq]
  by_cases hsize : 0 < c.size
  · obtain ⟨offsets, hoffsets, hbehind⟩ := offsets_walk hsize
    obtain ⟨line, -, hline⟩ := exists_line_of_lt hlines hsize
    rw [hoffsets, List.map_cons, List.map_cons, Listing.repeats, List.cons_eq_cons,
      map_bar_eq_iff hlines hbehind, decide_eq_decide, lineMark_eq_bar_iff hline]
    simp [hline]
  · rw [walk, walkFrom, dif_neg hsize]
    simp [Listing.repeats]

/-- Opcode and operand of an instruction that was laid out have one line. -/
theorem line?_operand_of_shows {entries : List (Nat × Except DecodeError Instruction)}
    {code : List (Instruction × Nat)} (h : List.Forall₂ c.Shows entries code) {offset : Nat}
    {index : UInt8} (hmem : (offset, .ok (.constant index)) ∈ entries) :
    c.line? (offset + 1) = c.line? offset := by
  induction h with
  | nil => contradiction
  | @cons entry placed _ _ hshows _ ih =>
    obtain rfl | hmem := List.mem_cons.1 hmem
    · obtain ⟨hplaced, hline⟩ := hshows
      have hsize : placed.1.size = 2 := by rw [← Except.ok.inj hplaced]; rfl
      rw [hline 1 (by omega)]
      exact (hline 0 (by omega)).symm
    · exact ih hmem

theorem tellsLines_of_shows (hlines : c.lines.size = c.size) {code : List (Instruction × Nat)}
    (h : List.Forall₂ c.Shows c.walk code) (name : String) :
    c.TellsLines name ∧ c.BarsRepeats name := by
  rw [tellsLines_iff_isChain hlines, barsRepeats_iff_isChain hlines]
  constructor
  -- Next to each other both hold by definition, and across an operand it has its opcode's line.
  · refine (isChain_walkFrom_iff (fun _ hsame => hsame) 0).2 ?_
    intro offset index hmem _ hsame
    exact (line?_operand_of_shows h hmem).symm.trans hsame
  · refine (isChain_walkFrom_iff (fun _ => Iff.rfl) 0).2 ?_
    intro offset index hmem _
    show c.line? (offset + 1) = _ ↔ _
    rw [line?_operand_of_shows h hmem]

/-- The listing of a source that compiles tells the right lines. -/
theorem tellsLines_of_compile {source : String} (h : compile source = .ok c) (name : String) :
    c.TellsLines name ∧ c.BarsRepeats name := by
  obtain ⟨e, -, -, -, rfl⟩ := compile_eq_ok_iff.1 h
  refine tellsLines_of_shows ?_ (walk_assemble _ _) name
  exact (size_lines_assemble ..).trans (size_assemble ..).symm

/-- **Bars.**  Of any chunk that was written, the listing tells the right lines exactly if no operand
    has the line of the next instruction without its opcode having it; and the bars stand for
    repeated lines exactly if opcode and operand both have that line or neither has it. -/
theorem tellsLines_iff (calls : List Addition) (name : String) :
    ((empty.after calls).TellsLines name ↔
      ∀ offset index, (offset, .ok (.constant index)) ∈ (empty.after calls).walk →
        offset + 2 < (empty.after calls).size →
        (empty.after calls).line? (offset + 1) = (empty.after calls).line? (offset + 2) →
          (empty.after calls).line? offset = (empty.after calls).line? (offset + 2)) ∧
    ((empty.after calls).BarsRepeats name ↔
      ∀ offset index, (offset, .ok (.constant index)) ∈ (empty.after calls).walk →
        offset + 2 < (empty.after calls).size →
        ((empty.after calls).line? (offset + 1) = (empty.after calls).line? (offset + 2) ↔
          (empty.after calls).line? offset = (empty.after calls).line? (offset + 2))) := by
  have hlines := size_lines_after calls
  constructor
  · rw [tellsLines_iff_isChain hlines]
    exact isChain_walkFrom_iff (fun _ h => h) 0
  · rw [barsRepeats_iff_isChain hlines]
    exact isChain_walkFrom_iff (fun _ => Iff.rfl) 0

/-- An operand with the line of the next instruction: the bar below stands for the line above it. -/
theorem not_tellsLines_of_split_constant :
    ∃ c, c = empty.after [.write 0 1, .write 9 2, .write 6 2] ∧
      Listing.lines "code" (c.listing "code") = [some 1, some 1] ∧
      c.entryLines = [some 1, some 2] ∧ ¬ c.TellsLines "code" ∧ ¬ c.BarsRepeats "code" := by
  refine ⟨_, rfl, ?_, ?_, ?_, ?_⟩
  all_goals decide +kernel

end Chunk

end ArithVM
