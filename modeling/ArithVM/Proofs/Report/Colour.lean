import ArithVM.Proofs.Report.Lines
import ArithVM.Proofs.Text.Escape
import ArithVM.Proofs.Text.Offsets

/-!
# Colour — the same report with switches

A report is one piece of text behind the other, each in its own style.  With colour a style is
switched on in front of its piece and off behind it.  So if nobody else brings escape characters
into a report, a terminal shows the same characters with colour and without.
-/

namespace ArithVM

open Text

/-! ## Pieces -/

namespace Piece

/-- What a terminal gets to do for a piece in colour. -/
def marks (piece : Piece) : List Mark :=
  match piece.style? with
  | some style =>
    .switch style.parameters.toList ::
      (piece.text.toList.map .letter ++ [.switch Mark.reset])
  | none => piece.text.toList.map .letter

variable {piece : Piece}

/-- A piece in colour is read as its marks, whatever follows. -/
theorem marks_render_append (h : EscapeFree piece.text) (rest : List Char) :
    Text.marks ((piece.render true).toList ++ rest) = piece.marks ++ Text.marks rest := by
  unfold render marks
  cases piece.style? with
  | none => exact marks_append_of_notMem h rest
  | some style =>
    have hparameters : ∀ c ∈ style.parameters.toList, isParameter c := by
      apply List.all_eq_true.1
      cases style <;> decide
    have hreset : ∀ c ∈ Mark.reset, isParameter c := List.all_eq_true.1 (by decide)
    have hopen : "\x1b[".toList = ['\x1b', '['] := by decide
    have hend : "m".toList = ['m'] := by decide
    have hclose : "\x1b[0m".toList = '\x1b' :: '[' :: (Mark.reset ++ ['m']) := by decide
    -- Each switch is read whole, whatever follows it, and the text between them letter by letter.
    simp only [String.toList_append, hopen, hend, hclose, List.append_assoc, List.cons_append,
      List.nil_append, marks_switch hparameters, marks_append_of_notMem h, marks_switch hreset]

theorem filterMap_letter?_marks (piece : Piece) :
    piece.marks.filterMap Mark.letter? = piece.text.toList := by
  have hletters (text : List Char) : (text.map Mark.letter).filterMap Mark.letter? = text := by
    rw [List.filterMap_map]
    exact List.filterMap_some
  unfold marks
  cases piece.style? with
  | none => exact hletters _
  | some style =>
    rw [List.filterMap_cons_none rfl, List.filterMap_append, hletters]
    exact List.append_nil _

theorem closed_marks (piece : Piece) : Mark.Closed piece.marks := by
  unfold marks
  cases piece.style? with
  | none => exact .letters _
  | some style =>
    have hopen : style.parameters.toList ≠ Mark.reset := by
      cases style <;> decide
    exact .styled hopen .nil

/-- Pieces one behind the other are read as their marks. -/
theorem marks_flatMap_render {pieces : List Piece} (h : ∀ piece ∈ pieces, EscapeFree piece.text) :
    Text.marks (pieces.flatMap fun piece => (piece.render true).toList) =
      pieces.flatMap marks := by
  induction pieces with
  | nil => simp [Text.marks]
  | cons piece pieces ih =>
    obtain ⟨hpiece, hpieces⟩ := List.forall_mem_cons.1 h
    rw [List.flatMap_cons, List.flatMap_cons, marks_render_append hpiece, ih hpieces]

theorem closed_flatMap_marks (pieces : List Piece) : Mark.Closed (pieces.flatMap marks) := by
  induction pieces with
  | nil => exact .nil
  | cons piece pieces ih =>
    rw [List.flatMap_cons]
    exact piece.closed_marks.append ih

end Piece

/-! ## Texts of a report -/

theorem LineTable.escapeFree_lineText (table : LineTable) {source : String}
    (h : EscapeFree source) (line : Nat) : EscapeFree (table.lineText source line) := by
  unfold lineText
  cases table.start? line with
  | none =>
    show EscapeFree ""
    decide
  | some start =>
    simp only [Option.bind_eq_bind, Option.bind_some]
    cases hslice : slice? source.toList start (table.starts[line]?.getD source.utf8ByteSize) with
    | none =>
      show EscapeFree ""
      decide
    | some part =>
      -- The line is a part of the source, of which the end is cut off.
      rcases exists_append_of_slice? hslice with ⟨front, back, hsource, -⟩
      intro hmem
      simp only [Option.bind_some, Option.pure_def, Option.getD_some, String.toList_ofList] at hmem
      apply h
      rw [hsource]
      exact List.mem_append_right _ (List.mem_append_left _
        (mem_of_mem_dropTrailing (mem_of_mem_dropTrailing hmem)))

namespace Report

variable {r : Report}

/-- No text that the report is made of has an escape character. -/
structure TextsEscapeFree (r : Report) : Prop where
  message : EscapeFree r.message
  code : ∀ code ∈ r.code?, EscapeFree code
  label : ∀ label ∈ r.label?, EscapeFree label.message
  notes : ∀ note ∈ r.notes, EscapeFree note
  suggestion : ∀ suggestion ∈ r.suggestion?, EscapeFree suggestion
  source : ∀ source ∈ r.source?, EscapeFree source

/-- No piece of the row has an escape character. -/
def RowEscapeFree (row : List Piece) : Prop :=
  ∀ piece ∈ row, EscapeFree piece.text

@[simp]
theorem rowEscapeFree_nil : RowEscapeFree [] :=
  List.forall_mem_nil _

@[simp]
theorem rowEscapeFree_cons {piece : Piece} {row : List Piece} :
    RowEscapeFree (piece :: row) ↔ EscapeFree piece.text ∧ RowEscapeFree row :=
  List.forall_mem_cons

theorem rowEscapeFree_heading (h : r.TextsEscapeFree) : RowEscapeFree r.heading := by
  unfold heading
  cases hcode : r.code? with
  | none => simp +decide [h.message]
  | some code => simp +decide [h.message, h.code code hcode]

theorem rowEscapeFree_arrow {place : String} (h : EscapeFree place) :
    RowEscapeFree (arrow place) := by
  simp +decide [arrow, h]

theorem rowEscapeFree_remarkRow {kind text : String} (hkind : EscapeFree kind)
    (htext : EscapeFree text) : RowEscapeFree (remarkRow kind text) := by
  simp +decide [remarkRow, hkind, htext]

theorem rowEscapeFree_marker {label : Label} (h : EscapeFree label.message) (start : Nat)
    (text : String) : RowEscapeFree (marker label start text) := by
  unfold marker
  by_cases hmessage : label.message = ""
  · simp [hmessage]
  · simp +decide [hmessage, h]

theorem rowEscapeFree_snippet {text : String} (htext : EscapeFree text) (line : Nat)
    {marker? : Option (List Piece)} (hmarker : ∀ row ∈ marker?, RowEscapeFree row) :
    ∀ row ∈ snippet text line marker?, RowEscapeFree row := by
  intro row hrow
  simp only [snippet, List.mem_append, List.mem_cons, List.not_mem_nil, or_false,
    Option.mem_toList, Option.map_eq_some_iff] at hrow
  rcases hrow with ((rfl | rfl) | ⟨marker, hsome, rfl⟩) | rfl
  · simp +decide [bar]
  · simp +decide [bar, htext]
  · simp +decide [bar, hmarker marker hsome]
  · simp +decide [bar]

theorem rowEscapeFree_placeRows (h : r.TextsEscapeFree) :
    ∀ row ∈ r.placeRows, RowEscapeFree row := by
  have hline (line : Nat) : RowEscapeFree (arrow ("line " ++ toString line)) :=
    rowEscapeFree_arrow (by simp +decide)
  unfold placeRows
  split
  next source label hsource hlabel =>
    have htext := h.source source hsource
    have hremark := h.label label hlabel
    refine List.forall_mem_cons.2 ⟨rowEscapeFree_arrow (by simp +decide), ?_⟩
    apply rowEscapeFree_snippet (LineTable.escapeFree_lineText _ htext _)
    rintro row ⟨⟩
    exact rowEscapeFree_marker hremark _ _
  next source line hsource _ _ =>
    have htext := h.source source hsource
    refine List.forall_mem_cons.2 ⟨hline line, ?_⟩
    apply rowEscapeFree_snippet (LineTable.escapeFree_lineText _ htext _)
    rintro row ⟨⟩
  next line _ _ => exact List.forall_mem_singleton.2 (hline line)
  next => exact List.forall_mem_nil _

theorem rowEscapeFree_rows (h : r.TextsEscapeFree) : ∀ row ∈ r.rows, RowEscapeFree row := by
  intro row hrow
  simp only [rows, List.mem_append, List.mem_cons, List.mem_map, Option.mem_toList,
    Option.map_eq_some_iff] at hrow
  rcases hrow with ((rfl | hplace) | ⟨note, hnote, rfl⟩) | ⟨suggestion, hsuggestion, rfl⟩
  · exact rowEscapeFree_heading h
  · exact rowEscapeFree_placeRows h row hplace
  · exact rowEscapeFree_remarkRow (by decide) (h.notes note hnote)
  · exact rowEscapeFree_remarkRow (by decide) (h.suggestion suggestion hsuggestion)

/-! ## With colour and without -/

/-- The pieces of a report in the order in which they are written. -/
def pieces (r : Report) : List Piece :=
  r.rows.flatMap (· ++ [.plain "\n"])

theorem toList_render (coloured : Bool) (r : Report) :
    (r.render coloured).toList =
      r.pieces.flatMap fun piece => (piece.render coloured).toList := by
  simp only [render, pieces, String.toList_join, List.flatMap_map, List.flatMap_assoc,
    List.flatMap_append, String.toList_append, List.flatMap_singleton, Piece.render_plain]

theorem escapeFree_pieces (h : r.TextsEscapeFree) :
    ∀ piece ∈ r.pieces, EscapeFree piece.text := by
  intro piece hpiece
  rcases List.mem_flatMap.1 hpiece with ⟨row, hrow, hpiece⟩
  rcases List.mem_append.1 hpiece with hpiece | hpiece
  · exact rowEscapeFree_rows h row hrow piece hpiece
  · rw [List.mem_singleton.1 hpiece]
    decide

/-- **Colour only adds switches.**  If no text of a report has an escape character, the coloured
    report without the switches in it is the plain one, and every style that is switched on is
    switched off again before anything else is switched. -/
theorem colour_only_adds_switches (h : r.TextsEscapeFree) :
    withoutSwitches (r.render true) = r.render false ∧
      Mark.Closed (marks (r.render true).toList) := by
  have hmarks : marks (r.render true).toList = r.pieces.flatMap Piece.marks := by
    rw [toList_render, Piece.marks_flatMap_render (escapeFree_pieces h)]
  constructor
  · apply String.toList_injective
    calc (withoutSwitches (r.render true)).toList
      _ = (r.pieces.flatMap Piece.marks).filterMap Mark.letter? := by
        rw [withoutSwitches, String.toList_ofList, hmarks]
      _ = r.pieces.flatMap fun piece => piece.text.toList := by
        simp only [List.filterMap_flatMap, Piece.filterMap_letter?_marks]
      _ = (r.render false).toList := by
        simp only [toList_render, Piece.render_false]
  · rw [hmarks]
    exact Piece.closed_flatMap_marks r.pieces

/-- A message that looks like a reset but for the escape character stays as it is. -/
theorem colour_only_adds_switches_around_reset :
    withoutSwitches ("\x1b[1;31merror\x1b[0m: \x1b[1m[0m\x1b[0m\n" ++
        "  \x1b[36m-->\x1b[0m line 2\n  \x1b[2m=\x1b[0m note: n\n") =
      "error: [0m\n  --> line 2\n  = note: n\n" ∧
    Mark.Closed (marks (((Report.error "[0m").withLine 2).withNote "n" |>.render true).toList) := by
  have hcoloured : (((Report.error "[0m").withLine 2).withNote "n").render true =
      "\x1b[1;31merror\x1b[0m: \x1b[1m[0m\x1b[0m\n" ++
        "  \x1b[36m-->\x1b[0m line 2\n  \x1b[2m=\x1b[0m note: n\n" := by
    decide +kernel
  have hplain : (((Report.error "[0m").withLine 2).withNote "n").render false =
      "error: [0m\n  --> line 2\n  = note: n\n" := by
    decide +kernel
  rw [← hcoloured, ← hplain]
  exact @colour_only_adds_switches (((Report.error "[0m").withLine 2).withNote "n")
    ⟨by decide, by decide, by decide, by decide, by decide, by decide⟩

end Report

end ArithVM
