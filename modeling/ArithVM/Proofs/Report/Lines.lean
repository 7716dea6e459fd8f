import ArithVM.Proofs.Report.Agreement
import Mathlib.Algebra.GroupWithZero.Nat

/-!
# Lines of a report

Without colour a report with a source and a label is a list of lines: heading, arrow, the line of
the source between two lines with nothing but the gutter, the marker, and what there is to know
besides.  Only the texts that are quoted can bring more line feeds into it.
-/

namespace ArithVM

open Text

/-! ## Lines of text -/

namespace Text

/-- Lines one below the other, each ended by a line feed. -/
def joinLines (lines : List String) : String :=
  String.join (lines.map (· ++ "\n"))

theorem joinLines_cons (line : String) (lines : List String) :
    joinLines (line :: lines) = line ++ "\n" ++ joinLines lines := by
  rw [joinLines, List.map_cons, String.join_cons]
  rfl

/-- Every line ends with one line feed, beside those that it has itself. -/
theorem count_joinLines (lines : List String) :
    (joinLines lines).toList.count '\n' =
      lines.length + (lines.map (·.toList.count '\n')).sum := by
  induction lines with
  | nil => rfl
  | cons line lines ih =>
    have hfeed : "\n".toList.count '\n' = 1 := by decide
    rw [joinLines_cons, String.toList_append, String.toList_append, List.count_append,
      List.count_append, ih, hfeed, List.length_cons, List.map_cons, List.sum_cons]
    omega

theorem sum_count_eq_zero_iff {lines : List String} :
    (lines.map (·.toList.count '\n')).sum = 0 ↔ ∀ line ∈ lines, OneLine line := by
  induction lines with
  | nil => simp
  | cons line lines ih =>
    rw [List.map_cons, List.sum_cons, Nat.add_eq_zero_iff, ih, List.count_eq_zero,
      List.forall_mem_cons]
    rfl

end Text

theorem OneLine.count_eq_zero {text : String} (h : OneLine text) : text.toList.count '\n' = 0 :=
  List.count_eq_zero.2 h

namespace Report

/-! ## The lines -/

/-- What a report begins with. -/
def headingLine (r : Report) : String :=
  (r.code?.elim "error" fun code => "error[" ++ code ++ "]") ++ ": " ++ r.message

/-- Blanks as wide as the number of a line, and the bar behind them. -/
def gutter (line : Nat) : String :=
  fill (toString line).length ' ' ++ " |"

/-- A line of the source behind its number and the bar. -/
def sourceLine (line : Nat) (text : String) : String :=
  toString line ++ " | " ++ text

/-- The line under a line of the source: blanks under `indent` of its characters, `width` carets,
    and a remark if there is one. -/
def markerLine (line indent width : Nat) (remark : String) : String :=
  gutter line ++ " " ++ fill indent ' ' ++ fill width '^' ++
    if remark = "" then "" else " " ++ remark

/-- A line for each note, and one for the suggestion. -/
def remarkLines (r : Report) : List String :=
  r.notes.map ("  = note: " ++ ·) ++ (r.suggestion?.map ("  = suggestion: " ++ ·)).toList

/-- The lines of a report with a label, where `text` is the line of the source that is shown. -/
def labelledLines (r : Report) (label : Label) (position : Position) (text : String)
    (indent width : Nat) : List String :=
  [r.headingLine, arrowLine false position.line position.column, gutter position.line,
    sourceLine position.line text, markerLine position.line indent width label.message,
    gutter position.line] ++ r.remarkLines

/-! ## Rows without colour -/

@[simp]
theorem rowText_nil (coloured : Bool) : rowText coloured [] = "" := rfl

@[simp]
theorem rowText_cons (coloured : Bool) (piece : Piece) (row : List Piece) :
    rowText coloured (piece :: row) = piece.render coloured ++ rowText coloured row :=
  String.join_cons

variable {r : Report} {source : String} {label : Label}

theorem rowText_heading (r : Report) : rowText false r.heading = r.headingLine := by
  unfold heading headingLine
  cases r.code? with
  | none =>
    simp only [rowText_cons, rowText_nil, Piece.render_false, Piece.text_painted,
      Piece.render_plain, Option.elim_none, String.append_empty, String.append_assoc]
  | some code =>
    simp only [rowText_cons, rowText_nil, Piece.render_false, Piece.text_painted,
      Piece.render_plain, Option.elim_some, String.append_empty, String.append_assoc]

theorem map_rowText_snippet (text : String) (line : Nat) (row : List Piece) :
    (snippet text line (some row)).map (rowText false) =
      [gutter line, sourceLine line text, gutter line ++ " " ++ rowText false row,
        gutter line] := by
  have hbar (rest : String) : " " ++ ("|" ++ (" " ++ rest)) = " | " ++ rest := rfl
  have hend : " " ++ "|" = " |" := rfl
  simp only [snippet, bar, gutter, sourceLine, Option.map_some, Option.toList_some,
    List.cons_append, List.nil_append, List.map_cons, List.map_nil, rowText_cons, rowText_nil,
    Piece.render_false, Piece.text_painted, Piece.render_plain, String.append_empty,
    String.append_assoc, hbar, hend]
  rfl

theorem rowText_marker (label : Label) (start : Nat) (text : String) (line : Nat) :
    gutter line ++ " " ++ rowText false (marker label start text) =
      markerLine line (caretRange label.span start text.toList).1
        (caretRange label.span start text.toList).2 label.message := by
  unfold marker markerLine
  by_cases hmessage : label.message = ""
  · simp [hmessage, String.append_assoc]
  · simp [hmessage, String.append_assoc]

theorem rowText_remarkRow (kind text : String) :
    rowText false (remarkRow kind text) = "  = " ++ kind ++ ": " ++ text := by
  have hsign (rest : String) : "  " ++ ("=" ++ (" " ++ rest)) = "  = " ++ rest := rfl
  simp only [remarkRow, rowText_cons, rowText_nil, Piece.render_false, Piece.text_painted,
    Piece.render_plain, String.append_empty, String.append_assoc, hsign]

theorem render_eq_joinLines (coloured : Bool) (r : Report) :
    r.render coloured = joinLines (r.rows.map (rowText coloured)) := by
  rw [joinLines, List.map_map]
  rfl

theorem map_rowText_remarks (r : Report) :
    (r.notes.map (remarkRow "note") ++ (r.suggestion?.map (remarkRow "suggestion")).toList).map
        (rowText false) = r.remarkLines := by
  have hnote : rowText false ∘ remarkRow "note" = ("  = note: " ++ ·) :=
    funext fun text => rowText_remarkRow "note" text
  have hsuggestion : rowText false ∘ remarkRow "suggestion" = ("  = suggestion: " ++ ·) :=
    funext fun text => rowText_remarkRow "suggestion" text
  rw [remarkLines, List.map_append, List.map_map, hnote, ← Option.toList_map, Option.map_map,
    hsuggestion]

/-- Without colour a report with a source and a label is its lines. -/
theorem render_of_label (hsource : r.source? = some source) (hlabel : r.label? = some label)
    {position : Position}
    (hposition : (LineTable.ofSource source).position label.span.start = position)
    {start : Nat} (hstart : (LineTable.ofSource source).start? position.line = some start)
    {text : String} (htext : (LineTable.ofSource source).lineText source position.line = text) :
    r.render false = joinLines (r.labelledLines label position text
      (caretRange label.span start text.toList).1
      (caretRange label.span start text.toList).2) := by
  rw [render_eq_joinLines]
  simp only [rows, placeRows, hsource, hlabel, hposition, hstart, htext, Option.getD_some,
    labelledLines, List.cons_append, List.append_assoc, List.nil_append, List.map_cons,
    List.map_append, map_rowText_snippet, rowText_marker, rowText_arrow, rowText_heading]
  rw [← map_rowText_remarks, List.map_append]

end Report

end ArithVM
