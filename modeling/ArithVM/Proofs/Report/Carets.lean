import ArithVM.Proofs.Report.Lines
import ArithVM.Proofs.LineTable.Segments
import ArithVM.Proofs.Text.Offsets

/-!
# Carets — the characters that are meant

The line of the beginning of a label is shown, and carets stand under those of its characters that
are within the label.  Blanks and carets count characters as long as the label begins and ends
between characters.  Where it begins inside of one the blanks count bytes, and the caret may stand
beyond the end of the line.
-/

namespace ArithVM

open Text

/-! ## Characters of a label -/

/-- The characters in front of an offset. -/
def charsBefore (offset : Nat) (chars : List (Nat × Char)) : List (Nat × Char) :=
  chars.filter (·.1 < offset)

/-- The characters within a span; there are none if it is empty or ends in front of its
    beginning. -/
def charsWithin (span : Span) (chars : List (Nat × Char)) : List (Nat × Char) :=
  chars.filter fun p => span.start ≤ p.1 ∧ p.1 < span.stop

namespace Report

variable {span : Span} {base : Nat} {text : List Char}

/-- A label that begins and ends between characters divides a line into what is in front of it,
    what is within it, and the rest. -/
theorem exists_parts (hstart : ¬ Cuts base text span.start) (hstop : ¬ Cuts base text span.stop) :
    ∃ front part back, text = front ++ (part ++ back) ∧
      byteLength front = min (span.start - base) (byteLength text) ∧
      charsBefore span.start (placed base text) = placed base front ∧
      charsWithin span (placed base text) = placed (base + byteLength front) part ∧
      caretRange span base text = (front.length, max 1 part.length) := by
  rcases exists_append_of_not_cuts hstart with ⟨front, tail, rfl, hfront⟩
  have htail : ¬ Cuts (base + byteLength front) tail span.stop := by
    intro hcuts
    have hwhole := hcuts.of_part []
    rw [List.append_nil] at hwhole
    exact hstop hwhole
  rcases exists_append_of_not_cuts htail with ⟨part, back, rfl, hpart⟩
  have hlength := byteLength_append front (part ++ back)
  have hlength' := byteLength_append part back
  refine ⟨front, part, back, rfl, hfront, ?_, ?_, ?_⟩
  · have hbefore := @filter_placed base [] front (part ++ back) (·.1 < span.start)
    rw [List.nil_append] at hbefore
    refine (hbefore ?_).trans rfl
    intro p hp
    have hbounds := lt_of_mem_placed hp
    rw [decide_eq_true_eq, byteLength_append, byteLength]
    omega
  · apply filter_placed
    intro p hp
    have hbounds := lt_of_mem_placed hp
    rw [decide_eq_true_eq, byteLength_append]
    omega
  · have hsize : min (max (span.stop - base) (byteLength front))
        (byteLength (front ++ (part ++ back))) = byteLength (front ++ part) := by
      rw [byteLength_append front part]
      omega
    simp only [caretRange, ← hfront, hsize, slice?_zero, slice?_append, Option.elim_some]

theorem caretRange_eq (hstart : ¬ Cuts base text span.start) (hstop : ¬ Cuts base text span.stop) :
    caretRange span base text = ((charsBefore span.start (placed base text)).length,
      max 1 (charsWithin span (placed base text)).length) := by
  rcases exists_parts hstart hstop with ⟨front, part, back, -, -, hbefore, hwithin, hrange⟩
  rw [hrange, hbefore, hwithin, length_placed, length_placed]

/-- The carets are under the characters within the label: if it begins on the line, and does not
    end where it begins unless that is behind the line, there is none too many. -/
theorem take_drop_placed (hstart : ¬ Cuts base text span.start)
    (hstop : ¬ Cuts base text span.stop) (hbase : base ≤ span.start)
    (hreach : span.start < span.stop ∨ base + byteLength text ≤ span.start) :
    ((placed base text).drop (charsBefore span.start (placed base text)).length).take
        (max 1 (charsWithin span (placed base text)).length) =
      charsWithin span (placed base text) := by
  rcases exists_parts hstart hstop with ⟨front, part, back, rfl, hfront, hbefore, hwithin, -⟩
  have hlength := byteLength_append front (part ++ back)
  rw [hbefore, hwithin, placed_append, List.drop_left, placed_append, length_placed]
  cases part with
  | cons c cs =>
    have hwidth : max 1 (c :: cs).length = (c :: cs).length := by
      rw [List.length_cons]
      omega
    rw [hwidth, ← length_placed (base + byteLength front), List.take_left]
  | nil =>
    cases back with
    | nil => rfl
    | cons c cs =>
      -- The next character stands where the label begins, and so within the label.
      have hpos := c.utf8Size_pos
      simp only [List.nil_append, byteLength] at hlength hfront hreach hwithin
      have hplace : base + byteLength front = span.start := by omega
      have hlt : span.start < span.stop := by omega
      have hmem : (span.start, c) ∈ charsWithin span (placed base (front ++ c :: cs)) := by
        refine List.mem_filter.2 ⟨?_, decide_eq_true ⟨Nat.le_refl _, hlt⟩⟩
        rw [placed_append, hplace]
        exact List.mem_append_right _ List.mem_cons_self
      rw [hwithin] at hmem
      contradiction

theorem caretRange_of_cuts (h : Cuts base text span.start) :
    caretRange span base text = (span.start - base, 1) := by
  have hbounds := h.bounds
  have hstart : min (span.start - base) (byteLength text) = span.start - base := by omega
  simp only [caretRange, hstart, slice?_zero_of_cuts h, slice?_of_cuts h, Option.elim_none,
    Nat.max_self]

theorem caretRange_le (h : ¬ Cuts base text span.start) :
    (caretRange span base text).1 + (caretRange span base text).2 ≤ text.length + 1 := by
  rcases exists_append_of_not_cuts h with ⟨front, tail, rfl, hfront⟩
  simp only [caretRange, ← hfront, slice?_zero, Option.elim_some, List.length_append]
  generalize min _ (byteLength (front ++ tail)) = stop
  cases hslice : slice? (front ++ tail) (byteLength front) stop with
  | none =>
    rw [Option.elim_none]
    omega
  | some part =>
    rcases exists_append_of_slice? hslice with ⟨front', back, heq, hlength⟩
    have hsplit := splitBytes?_eq_some_iff.2 ⟨heq, hlength⟩
    rw [splitBytes?_byteLength_append] at hsplit
    cases hsplit
    rw [Option.elim_some, List.length_append]
    omega

/-! ## The line of a label -/

/-- The text of the line of an offset. -/
def lineOf (source : String) (offset : Nat) : String :=
  (LineTable.ofSource source).lineText source (1 + lineFeedsBefore source offset)

/-- Without colour a report shows the line of a label, which begins at byte `start`: arrow, gutter,
    number and text, and under them blanks for `indent` characters, `width` carets and the
    remark. -/
structure Shows (r : Report) (source : String) (label : Label) (start indent width : Nat) :
    Prop where
  start_eq : (LineTable.ofSource source).start? (1 + lineFeedsBefore source label.span.start) =
    some start
  render_eq : r.render false = joinLines (r.labelledLines label
    ⟨1 + lineFeedsBefore source label.span.start, label.span.start - start + 1⟩
    (lineOf source label.span.start) indent width)

theorem Shows.start_unique {r : Report} {source : String} {label : Label}
    {start start' indent width : Nat} (h : r.Shows source label start indent width)
    (hstart : (LineTable.ofSource source).start? (1 + lineFeedsBefore source label.span.start) =
      some start') : start = start' :=
  Option.some.inj (h.start_eq.symm.trans hstart)

theorem exists_line (source : String) (offset : Nat) :
    ∃ start front back,
      (LineTable.ofSource source).start? (1 + lineFeedsBefore source offset) = some start ∧
      (LineTable.ofSource source).position offset =
        ⟨1 + lineFeedsBefore source offset, offset - start + 1⟩ ∧
      source.toList = front ++ ((lineOf source offset).toList ++ back) ∧
      byteLength front = start ∧ start ≤ offset := by
  rcases LineTable.exists_start?_position source offset with ⟨start, hstart, hle, hcolumn⟩
  have hline := LineTable.line_position_eq source offset
  rw [hline] at hstart
  have hbound := LineTable.isSome_start?_iff.1 (Option.isSome_of_mem hstart)
  have hlt : lineFeedsBefore source offset < 1 + source.toList.count '\n' := by omega
  rcases LineTable.exists_isLine hlt with ⟨returns, hisLine, -⟩
  rw [Nat.add_comm _ 1] at hisLine
  rcases hisLine.exists_start with ⟨start', hstart', hslice⟩
  rw [hstart, Option.some.injEq] at hstart'
  rcases exists_append_of_slice? hslice with ⟨front, back, hsource, hfront⟩
  rw [LineTable.wholeLine, List.append_assoc] at hsource
  refine ⟨start, front, _, hstart, ?_, hsource, hfront.trans hstart'.symm, hle⟩
  rw [← hline, ← hcolumn]

/-- Whatever the label is, the line of its beginning is shown. -/
theorem exists_shows {r : Report} {source : String} {label : Label}
    (hsource : r.source? = some source) (hlabel : r.label? = some label) :
    ∃ start front back,
      source.toList = front ++ ((lineOf source label.span.start).toList ++ back) ∧
      byteLength front = start ∧ start ≤ label.span.start ∧
      r.Shows source label start
        (caretRange label.span start (lineOf source label.span.start).toList).1
        (caretRange label.span start (lineOf source label.span.start).toList).2 := by
  rcases exists_line source label.span.start with
    ⟨start, front, back, hstart, hposition, hline, hfront, hle⟩
  exact ⟨start, front, back, hline, hfront, hle, hstart,
    render_of_label hsource hlabel hposition hstart rfl⟩

/-! ## Labels at real text -/

/-- The characters of a source within the span of a text that stands there are those of the
    text. -/
theorem charsWithin_of_standsAt {source text : String} {span : Span}
    (h : StandsAt source span text) :
    charsWithin span (placed 0 source.toList) = placed span.start text.toList := by
  rcases h with ⟨before, after, rfl, rfl⟩
  have hwithin := @filter_placed 0 before.toList text.toList after.toList
    fun p => before.utf8ByteSize ≤ p.1 ∧ p.1 < (before ++ text).utf8ByteSize
  simp only [Nat.zero_add, ← String.toList_append, byteLength_toList, ← String.append_assoc,
    decide_eq_true_eq] at hwithin
  exact hwithin fun _ _ => trivial

/-- The characters of a line that are within the span of a text are those of the text that are on
    the line. -/
theorem charsWithin_line {source text : String} {span : Span} (h : StandsAt source span text)
    {start : Nat} {line front back : List Char}
    (hsource : source.toList = front ++ (line ++ back)) (hfront : byteLength front = start) :
    charsWithin span (placed start line) =
      (placed span.start text.toList).filter (· ∈ placed start line) := by
  let onLine (p : Nat × Char) : Bool := start ≤ p.1 ∧ p.1 < start + byteLength line
  have hline : (placed 0 source.toList).filter onLine = placed start line := by
    have hpart := @filter_placed 0 front line back onLine
    rw [← hsource, byteLength_append, hfront, Nat.zero_add, Nat.zero_add] at hpart
    exact hpart fun _ _ => decide_eq_true_iff
  have hmem : ∀ p ∈ charsWithin span (placed 0 source.toList),
      onLine p = decide (p ∈ placed start line) := by
    intro p hp
    apply decide_eq_decide.2
    rw [← hline, List.mem_filter, and_iff_right (List.mem_of_mem_filter hp), decide_eq_true_eq]
  calc charsWithin span (placed start line)
    _ = charsWithin span ((placed 0 source.toList).filter onLine) := by rw [hline]
    _ = (charsWithin span (placed 0 source.toList)).filter onLine := List.filter_comm ..
    _ = (charsWithin span (placed 0 source.toList)).filter (· ∈ placed start line) :=
      List.filter_congr hmem
    _ = (placed span.start text.toList).filter (· ∈ placed start line) := by
      rw [charsWithin_of_standsAt h]

end Report

namespace StandsAt

variable {source text : String} {span : Span}

theorem isBoundary_start (h : StandsAt source span text) : IsBoundary source span.start := by
  rcases h with ⟨before, after, rfl, rfl⟩
  exact .inr ⟨before, text ++ after, String.append_assoc .., rfl⟩

theorem isBoundary_stop (h : StandsAt source span text) : IsBoundary source span.stop := by
  rcases h with ⟨before, after, rfl, rfl⟩
  exact .inr ⟨before ++ text, after, rfl, rfl⟩

end StandsAt

/-- A token takes some text, unless it is the end, which stands behind all text. -/
theorem Tokens.span_lt_or_eq {source : String} {t : Token} (ht : t ∈ (ofSource source).toList) :
    t.span.start < t.span.stop ∨ t.span.start = source.utf8ByteSize := by
  rcases List.mem_append.1 ht with hbody | hfinish
  · exact .inl ((layout_ofSource source).start_lt_stop t hbody)
  · rw [List.mem_singleton.1 hfinish] at ht ⊢
    right
    rw [(span_eq_end_iff ht).2 (kind_finish_ofSource source)]

namespace Report

/-- The line of an offset cuts no character that the source does not cut. -/
theorem not_cuts_lineOf {source : String} {line front back : List Char} {start offset : Nat}
    (hsource : source.toList = front ++ (line ++ back)) (hfront : byteLength front = start)
    (h : IsBoundary source offset) : ¬ Cuts start line offset := by
  intro hcuts
  rw [← hfront, ← Nat.zero_add (byteLength front)] at hcuts
  have hwhole := hcuts.of_part back
  rw [← hsource] at hwhole
  exact h.not_cuts hwhole

/-- **Carets are under the label.**  A report with a source and a label between characters shows the
    line on which the label begins, with a blank under every character in front of the label and a
    caret under every character within it, at least one.  For a compile error these are the
    characters of its token that are on that line. -/
theorem carets_under_label (source : String) :
    (∀ (r : Report) (label : Label), r.source? = some source → r.label? = some label →
      IsBoundary source label.span.start → IsBoundary source label.span.stop →
      ∃ start chars, chars = placed start (lineOf source label.span.start).toList ∧
        r.Shows source label start (charsBefore label.span.start chars).length
          (max 1 (charsWithin label.span chars).length)) ∧
    ∀ error, Chunk.compile source = .error error →
      ∃ start chars covered, chars = placed start (lineOf source error.span.start).toList ∧
        StandsAt source error.span error.token.text ∧
        covered = (placed error.span.start error.token.text.toList).filter (· ∈ chars) ∧
        (error.report.withSource source).Shows source ⟨error.span, error.remark⟩ start
          (charsBefore error.span.start chars).length (max 1 covered.length) ∧
        (chars.drop (charsBefore error.span.start chars).length).take (max 1 covered.length) =
          covered := by
  constructor
  · intro r label hsource hlabel hstart hstop
    rcases exists_shows hsource hlabel with ⟨start, front, back, hline, hfront, -, hshows⟩
    rw [caretRange_eq (not_cuts_lineOf hline hfront hstart)
      (not_cuts_lineOf hline hfront hstop)] at hshows
    exact ⟨start, _, rfl, hshows⟩
  · intro error herror
    have hstands := (CompileError.place_of_compile herror).1
    have htoken := (CompileError.token_of_compile herror).1
    rcases @exists_shows (error.report.withSource source) source ⟨error.span, error.remark⟩ rfl rfl
      with ⟨start, front, back, hline, hfront, hle, hshows⟩
    have hstart := not_cuts_lineOf hline hfront hstands.isBoundary_start
    have hstop := not_cuts_lineOf hline hfront hstands.isBoundary_stop
    have hreach : error.span.start < error.span.stop ∨
        start + byteLength (lineOf source error.span.start).toList ≤ error.span.start := by
      have hlength : source.utf8ByteSize =
          start + (byteLength (lineOf source error.span.start).toList + byteLength back) := by
        rw [← byteLength_toList, hline, byteLength_append, byteLength_append, hfront]
      have hspan : error.span.start < error.span.stop ∨ error.span.start = source.utf8ByteSize :=
        Tokens.span_lt_or_eq htoken
      omega
    have hcovered := take_drop_placed hstart hstop hle hreach
    rw [caretRange_eq hstart hstop] at hshows
    rw [charsWithin_line hstands hline hfront] at hshows hcovered
    exact ⟨start, _, _, rfl, hstands, rfl, hshows, hcovered⟩

/-- A label that goes back from the end of the source to its first line, and a string that begins
    on that line, in front of a carriage return. -/
theorem carets_under_string_over_lines :
    (((Report.error "m").withSource "2 \"é\r\nx\"").withLabel ⟨9, 3⟩ "here").Shows
        "2 \"é\r\nx\"" ⟨⟨9, 3⟩, "here"⟩ 7 2 1 ∧
      ∃ error, Chunk.compile "2 \"é\r\nx\"" = .error error ∧ error.span = ⟨2, 9⟩ ∧
        error.token.text = "\"é\r\nx\"" ∧
        (error.report.withSource "2 \"é\r\nx\"").Shows "2 \"é\r\nx\""
          ⟨⟨2, 9⟩, error.remark⟩ 0 2 2 := by
  obtain ⟨hlabels, herrors⟩ := carets_under_label "2 \"é\r\nx\""
  constructor
  · obtain ⟨start, chars, rfl, hshows⟩ :=
      hlabels (((Report.error "m").withSource "2 \"é\r\nx\"").withLabel ⟨9, 3⟩ "here")
        ⟨⟨9, 3⟩, "here"⟩ rfl rfl (.inr ⟨"2 \"é\r\nx\"", "", by decide, by decide⟩)
        (.inr ⟨"2 \"", "é\r\nx\"", by decide, by decide⟩)
    obtain rfl : start = 7 := hshows.start_unique (by decide)
    exact hshows
  · obtain ⟨error, herror, hview⟩ : ∃ error, Chunk.compile "2 \"é\r\nx\"" = .error error ∧
        (error.span, error.token.text) = (⟨2, 9⟩, "\"é\r\nx\"") :=
      CompileError.exists_of_compile _ _ (by decide +kernel)
    obtain ⟨hspan, htext⟩ := Prod.mk.inj hview
    obtain ⟨start, chars, covered, rfl, -, rfl, hshows, -⟩ := herrors error herror
    rw [hspan, htext] at hshows
    obtain rfl : start = 0 := hshows.start_unique (show (LineTable.ofSource "2 \"é\r\nx\"").start?
      (1 + lineFeedsBefore "2 \"é\r\nx\"" 2) = some 0 by decide)
    exact ⟨error, herror, hspan, htext, hshows⟩

/-! ## Labels that begin inside a character -/

/-- **Where the marker ends.**  It ends with the line, or with one caret behind it, unless the label
    begins inside a character of the line, and there are more bytes in front of that place than
    characters on the line. -/
theorem marker_within_line_iff {r : Report} {source : String} {label : Label}
    (hsource : r.source? = some source) (hlabel : r.label? = some label) :
    ∃ start text indent width, text = (lineOf source label.span.start).toList ∧
      r.Shows source label start indent width ∧
      (indent + width ≤ text.length + 1 ↔
        ¬ (Cuts start text label.span.start ∧ text.length < label.span.start - start)) ∧
      indent + width ≤ byteLength text + 1 := by
  rcases exists_shows hsource hlabel with ⟨start, front, back, -, -, -, hshows⟩
  refine ⟨start, _, _, _, rfl, hshows, ?_⟩
  generalize (lineOf source label.span.start).toList = text
  have hbytes := length_le_byteLength text
  by_cases hcuts : Cuts start text label.span.start
  · have hbounds := hcuts.bounds
    simp only [caretRange_of_cuts hcuts, hcuts, true_and]
    omega
  · have hle := caretRange_le hcuts
    simp only [hcuts, false_and, not_false_eq_true, iff_true]
    omega

/-- A label inside the first of three characters.  The blank counts a byte, and the caret is on the
    line. -/
theorem marker_within_line_inside_first :
    Cuts 0 "éab".toList 1 ∧ ∃ indent width,
      (((Report.error "m").withSource "éab").withLabel ⟨1, 4⟩ "").Shows "éab" ⟨⟨1, 4⟩, ""⟩ 0
        indent width ∧ indent + width ≤ 4 := by
  obtain ⟨start, text, indent, width, rfl, hshows, hwithin, -⟩ :=
    @marker_within_line_iff (((Report.error "m").withSource "éab").withLabel ⟨1, 4⟩ "") "éab"
      ⟨⟨1, 4⟩, ""⟩ rfl rfl
  obtain rfl : start = 0 := hshows.start_unique (by decide)
  exact ⟨by decide, indent, width, hshows, hwithin.2 (by decide +kernel)⟩

/-- The last byte of a character of three bytes has two bytes in front of it, which is more than
    there are characters on the line. -/
theorem marker_beyond_line :
    (((Report.error "m").withSource "€").withLabel ⟨2, 3⟩ "").render false =
        "error: m\n  --> 1:3\n  |\n1 | €\n  |   ^\n  |\n" ∧
      ¬ ∀ (r : Report) (source : String) (label : Label) (start indent width : Nat),
        r.source? = some source → r.label? = some label →
        r.Shows source label start indent width →
        indent + width ≤ (lineOf source label.span.start).toList.length + 1 := by
  have hrender : (((Report.error "m").withSource "€").withLabel ⟨2, 3⟩ "").render false =
      "error: m\n  --> 1:3\n  |\n1 | €\n  |   ^\n  |\n" := by
    decide +kernel
  refine ⟨hrender, fun hbound => ?_⟩
  have hshows : (((Report.error "m").withSource "€").withLabel ⟨2, 3⟩ "").Shows "€"
      ⟨⟨2, 3⟩, ""⟩ 0 2 1 :=
    ⟨by decide, by rw [hrender]; decide +kernel⟩
  have hle := hbound _ _ _ _ _ _ rfl rfl hshows
  revert hle
  decide +kernel

end Report

end ArithVM
