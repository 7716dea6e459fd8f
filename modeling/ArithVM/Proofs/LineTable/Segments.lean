import ArithVM.Proofs.LineTable.Inverse
import ArithVM.Proofs.Text.Trailing

/-!
# Segments — a source as its lines

`segments` cuts a text behind each of its line feeds.  The line table holds the offsets of these
cuts, so the text of a line is a segment without what ends it, and the lines put together again,
each with its ending, are the source.
-/

namespace ArithVM

open Text

namespace Text

/-- The lines of a text, each with the line feed that ends it; the last one has none. -/
def segments : List Char → List (List Char)
  | [] => [[]]
  | c :: cs =>
    if c = '\n' then ['\n'] :: segments cs
    else (segments cs).modifyHead (c :: ·)

theorem length_segments (text : List Char) : (segments text).length = 1 + text.count '\n' := by
  induction text with
  | nil => rfl
  | cons c cs ih =>
    by_cases hc : c = '\n'
    · rw [segments, if_pos hc, List.length_cons, ih, hc, List.count_cons_self]
      omega
    · rw [segments, if_neg hc, List.length_modifyHead, ih, List.count_cons_of_ne hc]

theorem exists_segments_eq (text : List Char) : ∃ line lines, segments text = line :: lines := by
  apply List.exists_cons_of_length_pos
  rw [length_segments]
  omega

theorem flatten_segments (text : List Char) : (segments text).flatten = text := by
  induction text with
  | nil => rfl
  | cons c cs ih =>
    by_cases hc : c = '\n'
    · rw [segments, if_pos hc, List.flatten_cons, ih, hc]
      rfl
    · rcases exists_segments_eq cs with ⟨line, lines, hlines⟩
      rw [hlines] at ih
      rw [segments, if_neg hc, hlines, List.modifyHead_cons, ← ih]
      rfl

/-- All segments but the last end in a line feed, and there is no other line feed in them. -/
theorem exists_segment {text : List Char} {i : Nat} (h : i < (segments text).length) :
    ∃ line, '\n' ∉ line ∧ (segments text)[i]? =
      some (line ++ if i + 1 < (segments text).length then ['\n'] else []) := by
  induction text generalizing i with
  | nil =>
    have hi : i = 0 := Nat.lt_one_iff.1 h
    rw [hi]
    exact ⟨[], List.not_mem_nil, rfl⟩
  | cons c cs ih =>
    rcases exists_segments_eq cs with ⟨first, lines, hlines⟩
    by_cases hc : c = '\n'
    · rw [segments, if_pos hc] at h ⊢
      cases i with
      | zero =>
        rw [if_pos (by rw [hlines]; simp)]
        exact ⟨[], List.not_mem_nil, rfl⟩
      | succ i =>
        rw [List.length_cons, Nat.add_lt_add_iff_right] at h
        rw [List.length_cons, List.getElem?_cons_succ]
        simpa only [Nat.add_lt_add_iff_right] using ih h
    · -- The character only makes the first segment longer.
      rw [hlines] at ih
      rw [segments, if_neg hc, hlines, List.modifyHead_cons] at h ⊢
      rcases ih h with ⟨line, hline, hget⟩
      cases i with
      | zero =>
        refine ⟨c :: line, ?_, congrArg some ?_⟩
        · intro hmem
          rcases List.mem_cons.1 hmem with heq | hmem
          · exact hc heq.symm
          · exact hline hmem
        · exact congrArg (c :: ·) (Option.some.inj hget)
      | succ i => exact ⟨line, hline, hget⟩

end Text

namespace LineTable

theorem getElem?_startsAfter {base i : Nat} {text : List Char} (h : i < (segments text).length) :
    (base :: startsAfter base text)[i]? =
      some (base + byteLength ((segments text).take i).flatten) := by
  induction text generalizing base i with
  | nil =>
    have hi : i = 0 := Nat.lt_one_iff.1 h
    rw [hi]
    rfl
  | cons c cs ih =>
    cases i with
    | zero => rfl
    | succ i =>
      rw [List.getElem?_cons_succ, startsAfter]
      by_cases hc : c = '\n'
      · rw [segments, if_pos hc, List.length_cons, Nat.add_lt_add_iff_right] at h
        rw [segments, if_pos hc, if_pos hc, List.take_succ_cons, List.flatten_cons,
          byteLength_append, ← Nat.add_assoc, hc]
        exact ih h
      · rw [segments, if_neg hc, List.length_modifyHead] at h
        have hrest := @ih (base + c.utf8Size) (i + 1) h
        rcases exists_segments_eq cs with ⟨line, lines, hlines⟩
        rw [hlines, List.getElem?_cons_succ, List.take_succ_cons, List.flatten_cons] at hrest
        rw [segments, if_neg hc, if_neg hc, hrest, hlines, List.modifyHead_cons,
          List.take_succ_cons, List.flatten_cons, List.cons_append, byteLength, Nat.add_assoc]

/-- The slice that is taken for a line is its segment, so there is always such a slice. -/
theorem exists_slice {source : String} {i : Nat} (h : i < 1 + source.toList.count '\n') :
    ∃ start segment, (ofSource source).start? (i + 1) = some start ∧
      (segments source.toList)[i]? = some segment ∧
      slice? source.toList start
        ((ofSource source).starts[i + 1]?.getD source.utf8ByteSize) = some segment := by
  have hlength := length_segments source.toList
  rw [← hlength] at h
  let lines := segments source.toList
  -- The source in three parts: the lines in front, this one, and those behind it.
  have hsource : (lines.take i).flatten ++ (lines[i] ++ (lines.drop (i + 1)).flatten) =
      source.toList := by
    rw [← List.flatten_cons, List.getElem_cons_drop, ← List.flatten_append, List.take_append_drop]
    exact flatten_segments source.toList
  have hstart : (ofSource source).starts[i]? = some (byteLength (lines.take i).flatten) := by
    rw [ofSource, getElem?_startsAfter h, Nat.zero_add]
  have hstop : (ofSource source).starts[i + 1]?.getD source.utf8ByteSize =
      byteLength ((lines.take i).flatten ++ lines[i]) := by
    have hfront : (lines.take (i + 1)).flatten = (lines.take i).flatten ++ lines[i] := by
      rw [List.take_succ_eq_append_getElem h, List.flatten_concat]
    by_cases hlast : i + 1 < lines.length
    · rw [ofSource, getElem?_startsAfter hlast, Nat.zero_add, Option.getD_some, hfront]
    · have hnone : (ofSource source).starts[i + 1]? = none := by
        apply List.getElem?_eq_none
        rw [length_starts, ← hlength]
        exact Nat.le_of_not_lt hlast
      rw [hnone, Option.getD_none, ← byteLength_toList, ← hfront,
        List.take_of_length_le (Nat.le_of_not_lt hlast)]
      exact congrArg byteLength (flatten_segments source.toList).symm
  refine ⟨_, lines[i], hstart, List.getElem?_eq_getElem h, ?_⟩
  rw [hstop]
  nth_rewrite 1 [← hsource]
  exact slice?_append _ _ _

theorem lineText_of_slice {source : String} {line start : Nat} {text : List Char}
    (hstart : (ofSource source).start? line = some start)
    (hslice : slice? source.toList start
      ((ofSource source).starts[line]?.getD source.utf8ByteSize) = some text) :
    ((ofSource source).lineText source line).toList =
      dropTrailing (· = '\r') (dropTrailing (· = '\n') text) := by
  unfold lineText
  simp only [hstart, Option.bind_eq_bind, Option.bind_some, hslice, Option.pure_def,
    Option.getD_some, String.toList_ofList]

/-! ## Lines and their endings -/

/-- A line with what ends it: some carriage returns, and a line feed unless it is the last. -/
def wholeLine (source : String) (line returns : Nat) : List Char :=
  ((ofSource source).lineText source line).toList ++
    (List.replicate returns '\r' ++ if line < 1 + source.toList.count '\n' then ['\n'] else [])

/-- The text of a line stands where the line begins, and nothing but its ending follows it there. -/
structure IsLine (source : String) (line returns : Nat) : Prop where
  exists_start : ∃ start, (ofSource source).start? line = some start ∧
    slice? source.toList start ((ofSource source).starts[line]?.getD source.utf8ByteSize) =
      some (wholeLine source line returns)
  no_feed : '\n' ∉ ((ofSource source).lineText source line).toList
  no_return : ((ofSource source).lineText source line).toList.getLast? ≠ some '\r'

theorem exists_isLine {source : String} {i : Nat} (h : i < 1 + source.toList.count '\n') :
    ∃ returns, IsLine source (i + 1) returns ∧
      (segments source.toList)[i]? = some (wholeLine source (i + 1) returns) := by
  rcases exists_slice h with ⟨start, segment, hstart, hsegment, hslice⟩
  have hlength := length_segments source.toList
  rcases exists_segment (hlength ▸ h) with ⟨line, hline, hget⟩
  rcases exists_dropTrailing_append '\r' line with ⟨returns, hreturns⟩
  rw [hsegment, hlength, Option.some.injEq] at hget
  -- The line feed is cut off, and nothing else is, for there is no other one in the line.
  have hfeed : dropTrailing (· = '\n') segment = line := by
    have hlast : line.getLast? ≠ some '\n' := fun hlast => hline (List.mem_of_getLast? hlast)
    rw [hget]
    split
    · exact dropTrailing_append_replicate hlast 1
    · exact dropTrailing_append_replicate hlast 0
  have htext : ((ofSource source).lineText source (i + 1)).toList =
      dropTrailing (· = '\r') line := by
    rw [lineText_of_slice hstart hslice, hfeed]
  have hwhole : segment = wholeLine source (i + 1) returns := by
    rw [wholeLine, htext, ← List.append_assoc, ← hreturns, hget]
  rw [hwhole] at hslice hsegment
  refine ⟨returns, ⟨⟨start, hstart, hslice⟩, ?_, ?_⟩, hsegment⟩
  · intro hmem
    rw [htext] at hmem
    rw [hreturns] at hline
    exact hline (List.mem_append_left _ hmem)
  · rw [htext]
    exact getLast?_dropTrailing '\r' line

theorem lineText_eq_empty {source : String} {line : Nat}
    (h : line = 0 ∨ 1 + source.toList.count '\n' < line) :
    (ofSource source).lineText source line = "" := by
  have hstart : (ofSource source).start? line = none := by
    rw [← Option.not_isSome_iff_eq_none, isSome_start?_iff]
    omega
  unfold lineText
  simp only [hstart, Option.bind_eq_bind, Option.bind_none, Option.getD_none]

/-- **Lines make up the source.**  Every line is a slice of the source: its text, in which there is
    no line feed, stands where the line begins, all carriage returns at its end are cut off, and a
    line feed follows unless the line is the last.  One behind the other these slices are the
    source.  Where there is no line the text is empty. -/
theorem lines_reassemble (source : String) :
    (∃ returns : Nat → Nat,
      (∀ line, 1 ≤ line → line ≤ 1 + source.toList.count '\n' →
        IsLine source line (returns line)) ∧
      source.toList = ((List.range' 1 (1 + source.toList.count '\n')).map fun line =>
        wholeLine source line (returns line)).flatten) ∧
    ∀ line, line = 0 ∨ 1 + source.toList.count '\n' < line →
      (ofSource source).lineText source line = "" := by
  have hline (i : Nat) : ∃ returns, i < 1 + source.toList.count '\n' →
      IsLine source (i + 1) returns ∧
        (segments source.toList)[i]? = some (wholeLine source (i + 1) returns) := by
    by_cases h : i < 1 + source.toList.count '\n'
    · rcases exists_isLine h with ⟨returns, hreturns⟩
      exact ⟨returns, fun _ => hreturns⟩
    · exact ⟨0, fun h' => absurd h' h⟩
  choose returns hreturns using hline
  refine ⟨⟨fun line => returns (line - 1), ?_, ?_⟩, fun _ => lineText_eq_empty⟩
  · intro line hpos hle
    have hisLine := (hreturns (line - 1) (by omega)).1
    rwa [Nat.sub_add_cancel hpos] at hisLine
  · have hsegments : segments source.toList =
        (List.range' 1 (1 + source.toList.count '\n')).map fun line =>
          wholeLine source line (returns (line - 1)) := by
      apply List.ext_getElem?
      intro i
      by_cases h : i < 1 + source.toList.count '\n'
      · have hi : i < (List.range' 1 (1 + source.toList.count '\n')).length := by
          rwa [List.length_range']
        rw [(hreturns i h).2, List.getElem?_map, List.getElem?_eq_getElem hi, List.getElem_range',
          Option.map_some, Nat.one_mul, Nat.add_comm 1 i, Nat.add_sub_cancel]
      · have hle := Nat.le_of_not_lt h
        rw [List.getElem?_eq_none (by rwa [length_segments]),
          List.getElem?_eq_none (by rwa [List.length_map, List.length_range'])]
    rw [← hsegments, flatten_segments]

/-- A blank line with a carriage return, two carriage returns in front of a line feed, and no text
    behind the last one. -/
theorem lines_reassemble_with_returns :
    (∃ returns : Nat → Nat, IsLine "\r\nö\r\r\n" 2 (returns 2)) ∧
      (ofSource "\r\nö\r\r\n").lineText "\r\nö\r\r\n" 2 = "ö" ∧
      (ofSource "\r\nö\r\r\n").lineText "\r\nö\r\r\n" 4 = "" := by
  rcases lines_reassemble "\r\nö\r\r\n" with ⟨⟨returns, hlines, -⟩, hempty⟩
  exact ⟨⟨returns, hlines 2 (by decide) (by decide)⟩, by decide, hempty 4 (.inr (by decide))⟩

end LineTable

end ArithVM
