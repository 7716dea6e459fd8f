import ArithVM.Proofs.Compile.Place
import ArithVM.Proofs.Text.OneLine
import ArithVM.Report.Data
import ArithVM.Report.Terminal

/-!
# Agreement — one place in every form of a report

The report of a compile error has the line of its token, and a label at the span of the token.  Data
and terminal look up the label in the source once more, each for itself.  They come to the same line
and column, and the line is the one that the scanner has counted.
-/

namespace ArithVM

/-! ## Members of data -/

namespace Json

/-- The value is an object with this member and no other of the same name. -/
def HasMember : Json → String → Json → Prop
  | .object members, key, value => members.filter (·.1 = key) = [(key, value)]
  | _, _, _ => False

/-- Names do not change when members that are missing are left out. -/
theorem filter_filterMap_present (key : String) (members : List (String × Option Json)) :
    (members.filterMap fun member => member.2.map fun value => (member.1, value)).filter
        (·.1 = key) =
      (members.filter (·.1 = key)).filterMap fun member =>
        member.2.map fun value => (member.1, value) := by
  induction members with
  | nil => rfl
  | cons member members ih =>
    obtain ⟨name, value?⟩ := member
    cases value? <;> by_cases hname : name = key <;> simp [hname, ih]

theorem hasMember_present {members : List (String × Option Json)} {key : String} {value : Json}
    (h : members.filter (·.1 = key) = [(key, some value)]) :
    (present members).HasMember key value := by
  show List.filter _ (List.filterMap _ members) = _
  rw [filter_filterMap_present, h]
  rfl

end Json

/-- The line and the place of a label in data. -/
theorem Label.hasMember_toJson (source : String) (label : Label) :
    (label.toJson (some source)).HasMember "line"
        (.number ((LineTable.ofSource source).position label.span.start).line) ∧
      (label.toJson (some source)).HasMember "col"
        (.number ((LineTable.ofSource source).position label.span.start).column) ∧
      (label.toJson (some source)).HasMember "start" (.number label.span.start) ∧
      (label.toJson (some source)).HasMember "end" (.number label.span.stop) :=
  ⟨Json.hasMember_present rfl, Json.hasMember_present rfl, Json.hasMember_present rfl,
    Json.hasMember_present rfl⟩

namespace Report

variable {r : Report}

theorem hasMember_line_toJson {line : Nat} (h : r.line? = some line) :
    r.toJson.HasMember "line" (.number line) := by
  rw [toJson, h]
  exact Json.hasMember_present rfl

theorem hasMember_label_toJson {label : Label} (h : r.label? = some label) :
    r.toJson.HasMember "label" (label.toJson r.source?) := by
  rw [toJson, h]
  exact Json.hasMember_present rfl

end Report

/-! ## Lines on a terminal -/

theorem ErrorCode.oneLine_text (code : ErrorCode) : OneLine code.text := by
  cases code <;> decide

theorem CompileError.Cause.oneLine_message (cause : CompileError.Cause) :
    OneLine cause.message := by
  rcases cause with (_ | _) | _ | _ | _ | _ | _ <;> decide

namespace Piece

@[simp]
theorem text_plain (text : String) : (plain text).text = text := rfl

@[simp]
theorem text_painted (style : Style) (text : String) : (painted style text).text = text := rfl

@[simp]
theorem render_plain (coloured : Bool) (text : String) : (plain text).render coloured = text := by
  cases coloured <;> rfl

@[simp]
theorem render_false (piece : Piece) : piece.render false = piece.text := rfl

/-- No style brings a line feed with it. -/
theorem oneLine_render {piece : Piece} (h : OneLine piece.text) (coloured : Bool) :
    OneLine (piece.render coloured) := by
  have hparameters (style : Style) : OneLine ("\x1b[" ++ style.parameters ++ "m") := by
    cases style <;> decide
  unfold render
  split
  next style _ =>
    exact OneLine.append_iff.2 ⟨OneLine.append_iff.2 ⟨hparameters style, h⟩, by decide⟩
  next => exact h

end Piece

namespace Report

variable {r : Report} {source : String} {label : Label}

/-- The second line of a text, without its line feed. -/
def SecondLine (line text : String) : Prop :=
  OneLine line ∧ ∃ first rest, OneLine first ∧ text = first ++ "\n" ++ line ++ "\n" ++ rest

/-- The line that points to a place. -/
def arrowLine (coloured : Bool) (line column : Nat) : String :=
  "  " ++ (if coloured then "\x1b[36m-->\x1b[0m" else "-->") ++ " " ++ toString line ++ ":" ++
    toString column

theorem oneLine_arrowLine (coloured : Bool) (line column : Nat) :
    OneLine (arrowLine coloured line column) := by
  have harrow : OneLine ("  " ++ (if coloured then "\x1b[36m-->\x1b[0m" else "-->") ++ " ") := by
    cases coloured <;> decide
  have hcolon : OneLine ":" := by decide
  rw [arrowLine, OneLine.append_iff, OneLine.append_iff, OneLine.append_iff]
  exact ⟨⟨⟨harrow, OneLine.toString_nat line⟩, hcolon⟩, OneLine.toString_nat column⟩

/-- The text of one row. -/
def rowText (coloured : Bool) (row : List Piece) : String :=
  String.join (row.map (Piece.render coloured))

theorem oneLine_rowText {row : List Piece} (h : ∀ piece ∈ row, OneLine piece.text)
    (coloured : Bool) : OneLine (rowText coloured row) := by
  induction row with
  | nil => exact List.not_mem_nil
  | cons piece row ih =>
    obtain ⟨hpiece, hrow⟩ := List.forall_mem_cons.1 h
    rw [rowText, List.map_cons, String.join_cons]
    exact OneLine.append_iff.2 ⟨Piece.oneLine_render hpiece coloured, ih hrow⟩

theorem rowText_arrow (coloured : Bool) (line column : Nat) :
    rowText coloured (arrow (toString line ++ ":" ++ toString column)) =
      arrowLine coloured line column := by
  have hpainted : (Piece.painted .cyan "-->").render coloured =
      if coloured then "\x1b[36m-->\x1b[0m" else "-->" := by
    cases coloured <;> decide
  simp only [rowText, arrow, arrowLine, List.map_cons, List.map_nil, Piece.render_plain, hpainted,
    String.join_cons, String.join_nil, String.append_empty, String.append_assoc]

/-- The rows of a report with a source and a label begin with the heading and the arrow. -/
theorem secondLine_render (coloured : Bool) (hsource : r.source? = some source)
    (hlabel : r.label? = some label) (hheading : ∀ piece ∈ r.heading, OneLine piece.text) :
    SecondLine
      (arrowLine coloured ((LineTable.ofSource source).position label.span.start).line
        ((LineTable.ofSource source).position label.span.start).column)
      (r.render coloured) := by
  obtain ⟨later, hrows⟩ : ∃ later, r.rows = r.heading :: arrow
      (toString ((LineTable.ofSource source).position label.span.start).line ++ ":" ++
        toString ((LineTable.ofSource source).position label.span.start).column) :: later := by
    simp only [rows, placeRows, hsource, hlabel]
    exact ⟨_, rfl⟩
  refine ⟨oneLine_arrowLine _ _ _, rowText coloured r.heading,
    String.join (later.map fun row => rowText coloured row ++ "\n"),
    oneLine_rowText hheading coloured, ?_⟩
  show String.join (r.rows.map fun row => rowText coloured row ++ "\n") = _
  rw [hrows, List.map_cons, List.map_cons, String.join_cons, String.join_cons, rowText_arrow]
  simp only [String.append_assoc]

end Report

namespace CompileError

variable {source : String} {error : CompileError}

theorem oneLine_heading (source : String) (error : CompileError) :
    ∀ piece ∈ (error.report.withSource source).heading, OneLine piece.text := by
  have hcode : OneLine ("error[" ++ error.code.text ++ "]") := by
    simp only [OneLine.append_iff, error.code.oneLine_text]
    decide
  refine List.forall_mem_cons.2 ⟨hcode, List.forall_mem_cons.2 ⟨by decide, ?_⟩⟩
  exact List.forall_mem_singleton.2 error.cause.oneLine_message

/-- **Every report agrees on where.**  An error is at real text of its source; it has no place
    exactly if the scanner found it, the place at the end exactly if its span is there, and is
    otherwise quoted.  Its line is that of its span, in data and on a terminal, and these two have
    the same column. -/
theorem agreement_of_compile (h : Chunk.compile source = .error error) :
    ∃ (text : String) (column : Nat),
      StandsAt source error.span text ∧
      (error.location = .unlocated ↔
        error.code.text = "LOX-L001" ∨ error.code.text = "LOX-L002") ∧
      (error.location = .atEnd ↔ error.span = ⟨source.utf8ByteSize, source.utf8ByteSize⟩) ∧
      (error.location ≠ .unlocated → error.location ≠ .atEnd →
        error.location = .lexeme text ∧ text ≠ "") ∧
      error.line = 1 + lineFeedsBefore source error.span.start ∧
      (error.report.withSource source).toJson.HasMember "line" (.number error.line) ∧
      (∃ label, (error.report.withSource source).toJson.HasMember "label" label ∧
        label.HasMember "line" (.number error.line) ∧ label.HasMember "col" (.number column) ∧
        label.HasMember "start" (.number error.span.start) ∧
        label.HasMember "end" (.number error.span.stop)) ∧
      ∀ coloured, Report.SecondLine (Report.arrowLine coloured error.line column)
        ((error.report.withSource source).render coloured) := by
  obtain ⟨hstands, hunlocated, hend, hlexeme, hline, hposition⟩ := place_of_compile h
  have hlabel : (error.report.withSource source).label? = some ⟨error.span, error.remark⟩ := rfl
  have hsource : (error.report.withSource source).source? = some source := rfl
  refine ⟨error.token.text, ((LineTable.ofSource source).position error.span.start).column,
    hstands, hunlocated, hend, hlexeme, hline, Report.hasMember_line_toJson rfl,
    ⟨Label.toJson (some source) ⟨error.span, error.remark⟩, ?_, ?_⟩, ?_⟩
  · exact Report.hasMember_label_toJson hlabel
  · rw [hposition]
    exact Label.hasMember_toJson source ⟨error.span, error.remark⟩
  · intro coloured
    have hheading := oneLine_heading source error
    have hsecond := Report.secondLine_render coloured hsource hlabel hheading
    rwa [← hposition] at hsecond

/-- A group that is still open behind the last line feed, and a stray character of two bytes on the
    second line. -/
theorem agreement_at_open_group_and_stray :
    (∃ error, Chunk.compile "(1\n" = .error error ∧ error.location = .atEnd ∧
      error.span = ⟨3, 3⟩ ∧ 2 = 1 + lineFeedsBefore "(1\n" 3 ∧
      ∃ column, ∀ coloured, Report.SecondLine (Report.arrowLine coloured 2 column)
        ((error.report.withSource "(1\n").render coloured)) ∧
    ∃ error, Chunk.compile "1 +\n é" = .error error ∧ error.location = .unlocated ∧
      error.code.text = "LOX-L001" ∧ error.span = ⟨5, 7⟩ ∧
      (∃ text, StandsAt "1 +\n é" ⟨5, 7⟩ text) ∧
      ∃ column, (∃ label, (error.report.withSource "1 +\n é").toJson.HasMember "label" label ∧
        label.HasMember "line" (.number 2) ∧ label.HasMember "col" (.number column)) ∧
        ∀ coloured, Report.SecondLine (Report.arrowLine coloured 2 column)
          ((error.report.withSource "1 +\n é").render coloured) := by
  obtain ⟨error, h, hview⟩ : ∃ error, Chunk.compile "(1\n" = .error error ∧
      (error.span, error.line) = (⟨3, 3⟩, 2) :=
    exists_of_compile _ _ (by decide +kernel)
  obtain ⟨hspan, hline⟩ := Prod.mk.inj hview
  obtain ⟨error', h', hview'⟩ : ∃ error, Chunk.compile "1 +\n é" = .error error ∧
      (error.code, error.span, error.line) = (.unexpectedCharacter, ⟨5, 7⟩, 2) :=
    exists_of_compile _ _ (by decide +kernel)
  simp only [Prod.mk.injEq] at hview'
  obtain ⟨hcode', hspan', hline'⟩ := hview'
  obtain ⟨-, column, -, -, hend, -, hfeeds, -, -, harrow⟩ := agreement_of_compile h
  obtain ⟨text, column', hstands, hunlocated, -, -, -, -, hlabel, harrow'⟩ :=
    agreement_of_compile h'
  obtain ⟨label, hmember, hlabelLine, hlabelColumn, -⟩ := hlabel
  rw [hline] at hfeeds harrow
  rw [hspan] at hfeeds hend
  rw [hline'] at hlabelLine harrow'
  rw [hspan'] at hstands
  rw [hcode'] at hunlocated
  exact ⟨⟨error, h, hend.2 rfl, hspan, hfeeds, column, harrow⟩,
    ⟨error', h', hunlocated.2 (.inl rfl), congrArg ErrorCode.text hcode', hspan', ⟨text, hstands⟩,
      column', ⟨label, hmember, hlabelLine, hlabelColumn⟩, harrow'⟩⟩

end CompileError

end ArithVM
