import ArithVM.Proofs.Report.Carets
import ArithVM.Proofs.Token.Munch

/-!
# Layout — where a report of a compile error is torn

The lines of a report are meant to be lines.  All texts that a compile error brings into its report
are, but for the remark: it quotes the token, and a string may go over several lines of the source.
Its line feeds are then in the marker line, which goes on without a gutter.
-/

namespace ArithVM

open Text

/-! ## Tokens on one line -/

theorem Tokens.oneLine_text {source : String} {t : Token} (ht : t ∈ (ofSource source).toList)
    (hproper : ∀ e, t.kind ≠ .invalid e) (hstring : t.kind ≠ .string) : OneLine t.text := by
  rcases List.mem_append.1 ht with hbody | hfinish
  · rcases (layout_ofSource source).exists_lexeme hbody with
      ⟨-, front, lexeme, -, -, -, -, hfirst, rfl, -⟩
    have hmatches := Lexeme.matches_of_first? hfirst hproper
    rw [OneLine, Lexeme.token, String.toList_ofList]
    exact hmatches.notMem_feed hstring
  · rw [List.mem_singleton.1 hfinish, (layout_ofSource source).finish_eq]
    exact List.not_mem_nil

namespace CompileError

variable {source : String} {error : CompileError}

/-- What a remark quotes has line feeds only if it is a string. -/
theorem count_remark (ht : error.token ∈ (Tokens.ofSource source).toList) :
    error.remark.toList.count '\n' =
      if error.token.kind = .string then error.token.text.toList.count '\n' else 0 := by
  by_cases hstring : error.token.kind = .string
  · have hremark : error.remark = "found '" ++ error.token.text ++ "'" := by
      rw [remark, location, hstring]
    rw [if_pos hstring, hremark, String.toList_append, String.toList_append, List.count_append,
      List.count_append]
    exact Nat.zero_add _
  · rw [if_neg hstring]
    apply OneLine.count_eq_zero
    -- Only one of the three remarks depends on the token, and that quotes a proper one.
    unfold remark location
    split
    next hlocation =>
      split at hlocation
      · contradiction
      · contradiction
      next hend hinvalid =>
        cases hlocation
        have htext := Tokens.oneLine_text ht (fun e he => hinvalid e he) hstring
        exact OneLine.append_iff.2 ⟨OneLine.append_iff.2 ⟨by decide, htext⟩, by decide⟩
    · decide
    · decide

theorem oneLine_note (error : CompileError) : ∀ note ∈ error.notes, OneLine note := by
  unfold notes
  split
  · decide
  · decide

theorem oneLine_suggestion (error : CompileError) :
    ∀ suggestion ∈ error.suggestion?, OneLine suggestion := by
  unfold suggestion?
  split
  · decide
  · decide
  · decide

end CompileError

namespace Report

/-! ## The lines of a report -/

theorem oneLine_gutter (line : Nat) : OneLine (gutter line) :=
  OneLine.append_iff.2 ⟨OneLine.fill _ (by decide), by decide⟩

theorem oneLine_sourceLine (line : Nat) {text : String} (h : OneLine text) :
    OneLine (sourceLine line text) :=
  OneLine.append_iff.2 ⟨OneLine.append_iff.2 ⟨OneLine.toString_nat line, by decide⟩, h⟩

/-- A marker line has the line feeds of its remark. -/
theorem count_markerLine (line indent width : Nat) (remark : String) :
    (markerLine line indent width remark).toList.count '\n' = remark.toList.count '\n' := by
  have hmarker : OneLine (gutter line ++ " " ++ fill indent ' ' ++ fill width '^') := by
    rw [OneLine.append_iff, OneLine.append_iff, OneLine.append_iff]
    exact ⟨⟨⟨oneLine_gutter line, by decide⟩, OneLine.fill _ (by decide)⟩,
      OneLine.fill _ (by decide)⟩
  rw [markerLine, String.toList_append, List.count_append, hmarker.count_eq_zero, Nat.zero_add]
  split
  next hremark => rw [hremark]
  next =>
    rw [String.toList_append, List.count_append]
    exact Nat.zero_add _

theorem oneLine_remarkLines {r : Report} (hnotes : ∀ note ∈ r.notes, OneLine note)
    (hsuggestion : ∀ suggestion ∈ r.suggestion?, OneLine suggestion) :
    ∀ line ∈ r.remarkLines, OneLine line := by
  intro line hline
  rcases List.mem_append.1 hline with hline | hline
  · rcases List.mem_map.1 hline with ⟨note, hnote, rfl⟩
    exact OneLine.append_iff.2 ⟨by decide, hnotes note hnote⟩
  · rcases Option.map_eq_some_iff.1 (Option.mem_toList.1 hline) with ⟨suggestion, hmem, rfl⟩
    exact OneLine.append_iff.2 ⟨by decide, hsuggestion suggestion hmem⟩

end Report

theorem LineTable.oneLine_lineText (source : String) (line : Nat) :
    OneLine ((ofSource source).lineText source line) := by
  by_cases h : line = 0 ∨ 1 + source.toList.count '\n' < line
  · -- There is no such line, and so no text.
    rw [lineText_eq_empty h]
    decide
  · have hlt : line - 1 < 1 + source.toList.count '\n' := by omega
    rcases exists_isLine hlt with ⟨returns, hisLine, -⟩
    rw [Nat.sub_add_cancel (by omega)] at hisLine
    exact hisLine.no_feed

namespace CompileError

variable {source : String} {error : CompileError}

/-! ## Errors in their source -/

/-- The lines of the report of an error, if the line of its place begins at byte `start` and `width`
    carets are under it, behind `indent` blanks. -/
def reportLines (source : String) (error : CompileError) (start indent width : Nat) :
    List String :=
  (error.report.withSource source).labelledLines ⟨error.span, error.remark⟩
    ⟨1 + lineFeedsBefore source error.span.start, error.span.start - start + 1⟩
    (Report.lineOf source error.span.start) indent width

/-- The report of an error keeps its layout: it is made of its lines, and each takes one line. -/
def KeepsLayout (source : String) (error : CompileError) : Prop :=
  ∃ start indent width, 1 ≤ width ∧
    (LineTable.ofSource source).start? (1 + lineFeedsBefore source error.span.start) =
      some start ∧
    (error.report.withSource source).render false =
      joinLines (error.reportLines source start indent width) ∧
    ∀ line ∈ error.reportLines source start indent width, OneLine line

/-- All lines but the marker line have no line feeds, and that has those of the remark. -/
theorem sum_count_reportLines (source : String) (error : CompileError)
    (start indent width : Nat) :
    ((error.reportLines source start indent width).map (·.toList.count '\n')).sum =
      error.remark.toList.count '\n' := by
  have hheading : OneLine (error.report.withSource source).headingLine := by
    rw [← Report.rowText_heading]
    exact Report.oneLine_rowText (oneLine_heading source error) false
  have hsource := Report.oneLine_sourceLine (1 + lineFeedsBefore source error.span.start)
    (LineTable.oneLine_lineText source (1 + lineFeedsBefore source error.span.start))
  have hremarks : ((error.report.withSource source).remarkLines.map
      (·.toList.count '\n')).sum = 0 :=
    sum_count_eq_zero_iff.2 (Report.oneLine_remarkLines error.oneLine_note error.oneLine_suggestion)
  simp only [reportLines, Report.labelledLines, List.map_append, List.sum_append, hremarks,
    List.map_cons, List.map_nil, List.sum_cons, List.sum_nil, hheading.count_eq_zero,
    (Report.oneLine_arrowLine _ _ _).count_eq_zero, (Report.oneLine_gutter _).count_eq_zero,
    Report.lineOf, hsource.count_eq_zero, Report.count_markerLine]
  omega

theorem length_reportLines (source : String) (error : CompileError) (start indent width : Nat) :
    (error.reportLines source start indent width).length =
      6 + (error.notes.length + error.suggestion?.toList.length) := by
  rw [reportLines, Report.labelledLines, Report.remarkLines, List.length_append,
    List.length_append, List.length_map, Option.length_toList, Option.length_toList,
    Option.isSome_map]
  rfl

theorem not_keepsLayout (ht : error.token ∈ (Tokens.ofSource source).toList)
    (hstring : error.token.kind = .string) (hfeed : '\n' ∈ error.token.text.toList) :
    ¬ error.KeepsLayout source := by
  rintro ⟨start, indent, width, -, -, -, hlines⟩
  have hcount := sum_count_eq_zero_iff.2 hlines
  rw [sum_count_reportLines, count_remark ht, if_pos hstring] at hcount
  exact List.count_eq_zero.1 hcount hfeed

/-- **Only strings tear a report.**  The report of a compile error keeps its layout exactly if the
    token that it quotes is not a string with a line feed.  It has one line feed for each of its
    lines, and the line feeds of such a string besides. -/
theorem keepsLayout_iff (h : Chunk.compile source = .error error) :
    (error.KeepsLayout source ↔
      ¬ (error.token.kind = .string ∧ '\n' ∈ error.token.text.toList)) ∧
    ((error.report.withSource source).render false).toList.count '\n' =
      6 + (error.notes.length + error.suggestion?.toList.length) +
        if error.token.kind = .string then error.token.text.toList.count '\n' else 0 := by
  have htoken := (token_of_compile h).1
  rcases @Report.exists_shows (error.report.withSource source) source ⟨error.span, error.remark⟩
    rfl rfl with ⟨start, -, -, -, -, -, hstart, hrender⟩
  change _ = joinLines (error.reportLines source start _ _) at hrender
  constructor
  · constructor
    · -- Whatever indent and width are said to be, one line has the line feeds of the string.
      intro hkeeps hstring
      exact not_keepsLayout htoken hstring.1 hstring.2 hkeeps
    · intro hstring
      refine ⟨start, _, _, Nat.le_max_left .., hstart, hrender, sum_count_eq_zero_iff.1 ?_⟩
      rw [sum_count_reportLines, count_remark htoken]
      split
      next hkind => exact List.count_eq_zero.2 fun hfeed => hstring ⟨hkind, hfeed⟩
      next => rfl
  · rw [hrender, count_joinLines, length_reportLines, sum_count_reportLines, count_remark htoken]

/-- A group that is still open behind the last line feed takes seven lines, one of them for the
    suggestion. -/
theorem keepsLayout_open_group :
    ∃ error, Chunk.compile "(1\n" = .error error ∧ error.KeepsLayout "(1\n" ∧
      ((error.report.withSource "(1\n").render false).toList.count '\n' = 7 := by
  obtain ⟨error, herror, hview⟩ : ∃ error, Chunk.compile "(1\n" = .error error ∧
      (error.token.kind, error.cause) = (.endOfInput, .unclosedGroup) :=
    exists_of_compile _ _ (by decide +kernel)
  obtain ⟨hkind, hcause⟩ := Prod.mk.inj hview
  obtain ⟨hkeeps, hcount⟩ := keepsLayout_iff herror
  rw [hkind] at hkeeps hcount
  rw [notes, suggestion?, hcause] at hcount
  exact ⟨error, herror, hkeeps.2 (by simp), hcount⟩

/-- A string over two lines where an expression is complete. -/
theorem string_tears_report :
    (∃ error, Chunk.compile "1\n\"a\nb\"" = .error error ∧
      (error.report.withSource "1\n\"a\nb\"").render false =
        "error[LOX-C003]: Expect end of expression.\n  --> 2:1\n  |\n2 | \"a\n" ++
          "  | ^^ found '\"a\nb\"'\n  |\n") ∧
      ¬ ∀ source error, Chunk.compile source = .error error → error.KeepsLayout source := by
  obtain ⟨error, herror, hview⟩ : ∃ error, Chunk.compile "1\n\"a\nb\"" = .error error ∧
      (error.token.kind, error.token.text, (error.report.withSource "1\n\"a\nb\"").render false) =
        (.string, "\"a\nb\"",
          "error[LOX-C003]: Expect end of expression.\n  --> 2:1\n  |\n2 | \"a\n" ++
          "  | ^^ found '\"a\nb\"'\n  |\n") :=
    exists_of_compile _ _ (by decide +kernel)
  simp only [Prod.mk.injEq] at hview
  obtain ⟨hkind, htext, hrender⟩ := hview
  refine ⟨⟨error, herror, hrender⟩, fun hkeeps => ?_⟩
  refine not_keepsLayout (token_of_compile herror).1 hkind ?_ (hkeeps _ _ herror)
  rw [htext]
  decide

end CompileError

end ArithVM
