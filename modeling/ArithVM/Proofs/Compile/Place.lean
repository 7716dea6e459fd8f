import ArithVM.Proofs.Compile.Verdict
import ArithVM.Proofs.Token.Lines

/-!
# The place of an error

A compile error takes line and span from a token of its source, and every token stands where it
says.  An error is therefore at real text, or at the very end of the source; and which of the ways a
message has to say where depends on nothing but whether the token is improper, the end, or neither.
-/

namespace ArithVM

open Text

namespace Text

theorem byteLength_eq (text : List Char) : byteLength text = (String.ofList text).utf8ByteSize := by
  rw [← byteLength_toList, String.toList_ofList]

end Text

/-- At this span of the source stands this text, which begins and ends between two characters. -/
def StandsAt (source : String) (span : Span) (text : String) : Prop :=
  ∃ before after : String, source = before ++ text ++ after ∧
    span = ⟨before.utf8ByteSize, (before ++ text).utf8ByteSize⟩

theorem StandsAt.ne_empty {source text : String} {span : Span} (h : StandsAt source span text)
    (hspan : span.start < span.stop) : text ≠ "" := by
  obtain ⟨before, after, -, rfl⟩ := h
  rintro rfl
  rw [String.append_empty] at hspan
  exact Nat.lt_irrefl _ hspan

/-! ## The places of tokens -/

section Tokens

variable {source : String} {t : Token}

theorem Tokens.standsAt (ht : t ∈ (ofSource source).toList) : StandsAt source t.span t.text := by
  obtain ⟨front, rest, hsource, hspan, -⟩ := (layout_ofSource source).exists_place ht
  rw [List.nil_append] at hsource
  refine ⟨String.ofList front, String.ofList rest, ?_, ?_⟩
  · rw [← String.ofList_toList (s := source), hsource, String.ofList_append, String.ofList_append,
      String.ofList_toList, String.append_assoc]
  · rw [hspan, byteLength_eq, byteLength_eq, String.ofList_append, String.ofList_toList]

/-- The line of a token is that of its offset, among the bytes and in the line table. -/
theorem Tokens.line_eq (ht : t ∈ (ofSource source).toList) :
    t.line = 1 + lineFeedsBefore source t.span.start ∧
      t.line = ((LineTable.ofSource source).position t.span.start).line := by
  obtain ⟨front, rest, hsource, hspan, hline⟩ := (layout_ofSource source).exists_place ht
  rw [List.nil_append] at hsource
  rw [hline, hspan, lineFeedsBefore_eq hsource, LineTable.line_position hsource]
  exact ⟨rfl, rfl⟩

/-- The end is the one token that stands at the end of its source. -/
theorem Tokens.span_eq_end_iff (ht : t ∈ (ofSource source).toList) :
    t.span = ⟨source.utf8ByteSize, source.utf8ByteSize⟩ ↔ t.kind = .endOfInput := by
  have hlayout := layout_ofSource source
  obtain ht | ht := List.mem_append.1 ht
  · refine iff_of_false (fun hspan => ?_) (kind_ne_endOfInput ht)
    have hlt := hlayout.start_lt_stop t ht
    rw [hspan] at hlt
    exact Nat.lt_irrefl _ hlt
  · rw [List.mem_singleton.1 ht]
    refine iff_of_true ?_ (kind_finish_ofSource source)
    rw [hlayout.finish_eq, ← byteLength_toList]
    rfl

theorem Tokens.text_ne_empty (ht : t ∈ (ofSource source).toList) (hkind : t.kind ≠ .endOfInput) :
    t.text ≠ "" := by
  obtain ht' | ht' := List.mem_append.1 ht
  · exact (standsAt ht).ne_empty ((layout_ofSource source).start_lt_stop t ht')
  · rw [List.mem_singleton.1 ht'] at hkind
    exact absurd (kind_finish_ofSource source) hkind

end Tokens

/-! ## The places of errors -/

namespace CompileError

variable {source : String} {error : CompileError}

/-- An error is at a token of its source, and is lexical exactly if the token is improper. -/
theorem token_of_compile (h : Chunk.compile source = .error error) :
    error.token ∈ (Tokens.ofSource source).toList ∧
      ∀ e, error.token.kind = .invalid e ↔ error.cause = .lexical e := by
  have hverdict := verdict_of_source source
  rw [h] at hverdict
  cases hverdict with
  | refused htokens _ hrefuses =>
    refine ⟨?_, fun e => hrefuses.kind_eq_invalid_iff⟩
    rw [htokens]
    exact List.mem_append_right _ List.mem_cons_self

/-- What compiling says of an error holds of the error. -/
theorem exists_of_compile {α : Type} (source : String) (view : CompileError → α) {seen : α}
    (h : (match Chunk.compile source with
      | .ok _ => none
      | .error error => some (view error)) = some seen) :
    ∃ error, Chunk.compile source = .error error ∧ view error = seen := by
  cases hcompile : Chunk.compile source with
  | ok c =>
    rw [hcompile] at h
    contradiction
  | error error =>
    rw [hcompile] at h
    exact ⟨error, rfl, Option.some.inj h⟩

theorem location_eq_unlocated_iff :
    error.location = .unlocated ↔ ∃ e, error.token.kind = .invalid e := by
  unfold location
  split <;> simp_all

theorem location_eq_atEnd_iff : error.location = .atEnd ↔ error.token.kind = .endOfInput := by
  unfold location
  split <;> simp_all

/-- Whatever has a place that is not the end is quoted. -/
theorem location_eq_lexeme (hplace : error.location ≠ .unlocated) (hend : error.location ≠ .atEnd) :
    error.location = .lexeme error.token.text := by
  unfold location at *
  split
  next hkind => simp only [hkind, ne_eq, not_true_eq_false] at hend
  next hkind => simp only [hkind, ne_eq, not_true_eq_false] at hplace
  next => rfl

/-- The codes of the scanner are those of improper tokens. -/
theorem Cause.code_text_iff {cause : Cause} :
    cause.code.text = "LOX-L001" ∨ cause.code.text = "LOX-L002" ↔ ∃ e, cause = .lexical e := by
  rcases cause with (_ | _) | _ | _ | _ | _ | _ <;> simp [code, ErrorCode.text]

/-- An error is where it says: nowhere in particular if the scanner found it, at the end, or at the
    text that it quotes; and its line is that of its span. -/
theorem place_of_compile (h : Chunk.compile source = .error error) :
    StandsAt source error.span error.token.text ∧
      (error.location = .unlocated ↔
        error.code.text = "LOX-L001" ∨ error.code.text = "LOX-L002") ∧
      (error.location = .atEnd ↔ error.span = ⟨source.utf8ByteSize, source.utf8ByteSize⟩) ∧
      (error.location ≠ .unlocated → error.location ≠ .atEnd →
        error.location = .lexeme error.token.text ∧ error.token.text ≠ "") ∧
      error.line = 1 + lineFeedsBefore source error.span.start ∧
      error.line = ((LineTable.ofSource source).position error.span.start).line := by
  obtain ⟨htoken, hlexical⟩ := token_of_compile h
  refine ⟨Tokens.standsAt htoken, ?_, ?_, ?_, Tokens.line_eq htoken⟩
  · rw [location_eq_unlocated_iff, code, Cause.code_text_iff]
    exact exists_congr hlexical
  · rw [location_eq_atEnd_iff]
    exact (Tokens.span_eq_end_iff htoken).symm
  · intro hplace hend
    refine ⟨location_eq_lexeme hplace hend, Tokens.text_ne_empty htoken ?_⟩
    exact fun hkind => hend (location_eq_atEnd_iff.2 hkind)

end CompileError

end ArithVM
