import ArithVM.Proofs.LineTable.Position
import ArithVM.Proofs.Token.Munch

/-!
# Lines of tokens

A scanner counts line feeds while it goes along, before a token and over it.  What it has counted
where a token begins are the line feeds in front of the token, and so the line of the token is the
one that the line table of the source has for its offset.
-/

namespace ArithVM

open Text

/-- Every token of a layout stands where it says, and is placed by the text in front of it. -/
theorem Layout.exists_place {before ahead : List Char} {tokens : Tokens}
    (h : Layout before ahead tokens) {t : Token} (ht : t ∈ tokens.toList) :
    ∃ front rest, before ++ ahead = front ++ (t.text.toList ++ rest) ∧
      t.span = ⟨byteLength front, byteLength (front ++ t.text.toList)⟩ ∧
      t.line = 1 + front.count '\n' := by
  obtain ht | ht := List.mem_append.1 ht
  · obtain ⟨-, front, lexeme, -, -, hsource, -, -, rfl, -⟩ := h.exists_lexeme ht
    refine ⟨front, lexeme.rest, ?_, ?_, rfl⟩
    · rw [hsource, Lexeme.token, String.toList_ofList]
    · rw [Lexeme.token, String.toList_ofList]
  · rw [List.mem_singleton.1 ht, h.finish_eq]
    refine ⟨before ++ ahead, [], (List.append_nil _).symm, ?_, rfl⟩
    show Span.mk _ _ = ⟨_, byteLength (before ++ ahead ++ [])⟩
    rw [List.append_nil]

theorem Layout.exists_front {before ahead : List Char} {tokens : Tokens}
    (h : Layout before ahead tokens) {t : Token} (ht : t ∈ tokens.toList) :
    ∃ front rest, before ++ ahead = front ++ rest ∧ t.span.start = byteLength front ∧
      t.line = 1 + front.count '\n' := by
  obtain ⟨front, rest, hsource, hspan, hline⟩ := h.exists_place ht
  exact ⟨front, t.text.toList ++ rest, hsource, by rw [hspan], hline⟩

/-- **Three counts of lines agree.**  The line that the scanner counts for a token, proper or not or
    the end, is one more than the line feeds among the bytes in front of it, and is the line of its
    offset in the line table, by whatever search that is found. -/
theorem line_of_mem_tokens {source : String} {t : Token}
    (ht : t ∈ (Tokens.ofSource source).toList) :
    t.line = 1 + lineFeedsBefore source t.span.start ∧
      t.line = ((LineTable.ofSource source).position t.span.start).line ∧
      ∀ answer, LineTable.Search (LineTable.ofSource source).starts t.span.start answer →
        LineTable.searchLine answer = t.line := by
  obtain ⟨front, rest, hsource, hstart, hline⟩ := (layout_ofSource source).exists_front ht
  rw [List.nil_append] at hsource
  have htable := LineTable.line_position hsource
  rw [← hstart, ← hline] at htable
  refine ⟨?_, htable.symm, ?_⟩
  · rw [hline, hstart, lineFeedsBefore_eq hsource]
  · intro answer hsearch
    rw [LineTable.searchLine_eq hsearch, htable]

/-- Behind a string over two lines stand a stray character, which begins no line, and the end of the
    source, which does. -/
theorem line_behind_string_over_lines :
    (∃ t ∈ (Tokens.ofSource "\"ä\n\" @\n").toList, t.kind = .invalid .unexpectedCharacter ∧
      t.line = 2 ∧ 2 = 1 + lineFeedsBefore "\"ä\n\" @\n" 6 ∧
      2 = ((LineTable.ofSource "\"ä\n\" @\n").position 6).line ∧
      LineTable.Search (LineTable.ofSource "\"ä\n\" @\n").starts 6 (.error 2) ∧
      LineTable.searchLine (.error 2) = 2) ∧
    ∃ t ∈ (Tokens.ofSource "\"ä\n\" @\n").toList, t.kind = .endOfInput ∧
      t.line = 3 ∧ 3 = 1 + lineFeedsBefore "\"ä\n\" @\n" 8 ∧
      3 = ((LineTable.ofSource "\"ä\n\" @\n").position 8).line ∧
      LineTable.Search (LineTable.ofSource "\"ä\n\" @\n").starts 8 (.ok 2) ∧
      LineTable.searchLine (.ok 2) = 3 := by
  have hstray : (⟨.invalid .unexpectedCharacter, "@", ⟨6, 7⟩, 2⟩ : Token) ∈
      (Tokens.ofSource "\"ä\n\" @\n").toList := by
    decide +kernel
  have hfinish : (⟨.endOfInput, "", ⟨8, 8⟩, 3⟩ : Token) ∈
      (Tokens.ofSource "\"ä\n\" @\n").toList := by
    decide +kernel
  have hmiss : LineTable.Search (LineTable.ofSource "\"ä\n\" @\n").starts 6 (.error 2) :=
    .miss (by decide) (by decide) (by decide)
  have hhit : LineTable.Search (LineTable.ofSource "\"ä\n\" @\n").starts 8 (.ok 2) :=
    .hit (by decide)
  obtain ⟨hbytes, htable, hsearch⟩ := line_of_mem_tokens hstray
  obtain ⟨hbytes', htable', hsearch'⟩ := line_of_mem_tokens hfinish
  exact ⟨⟨_, hstray, rfl, rfl, hbytes, htable, hmiss, hsearch _ hmiss⟩,
    ⟨_, hfinish, rfl, rfl, hbytes', htable', hhit, hsearch' _ hhit⟩⟩

end ArithVM
