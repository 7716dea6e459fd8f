import ArithVM.Proofs.Token.Sequence
import Mathlib.Data.List.Forall2
import Mathlib.Data.List.TakeWhile

/-!
# Layout — where the tokens of a source stand

A source is a gap, a token, a gap, a token and so on, with a gap before its end.  `Trivia` says what
a gap is, `Layout` how gaps and tokens follow each other; a token is placed by the text in front of
it.  The tokens of every source are laid out so, and therefore nothing of the source is lost.
-/

namespace ArithVM

open Text

/-! ## Gaps -/

/-- The end of the source or of a line. -/
def EndsLine (cs : List Char) : Prop :=
  cs = [] ∨ ∃ more, cs = '\n' :: more

/-- Blanks and comments, with `rest` behind them. -/
inductive Trivia : List Char → List Char → Prop where
  | nil {rest : List Char} : Trivia [] rest
  | separator {c : Char} {cs rest : List Char} (hc : isSeparator c) (hcs : Trivia cs rest) :
    Trivia (c :: cs) rest
  | comment {body cs rest : List Char} (hbody : '\n' ∉ body) (hend : EndsLine (cs ++ rest))
    (hcs : Trivia cs rest) : Trivia ('/' :: '/' :: (body ++ cs)) rest

/-- Whether a gap goes on here. -/
def startsTrivia : List Char → Bool
  | '/' :: '/' :: _ => true
  | c :: _ => isSeparator c
  | [] => false

theorem endsLine_dropWhile (cs : List Char) : EndsLine (cs.dropWhile (· ≠ '\n')) := by
  cases h : cs.dropWhile (· ≠ '\n') with
  | nil => exact .inl rfl
  | cons c rest =>
    have hhead := List.head?_dropWhile_not (· ≠ '\n') cs
    rw [h] at hhead
    have hc : c = '\n' := by simpa using hhead
    exact .inr ⟨rest, by rw [hc]⟩

theorem notMem_takeWhile (cs : List Char) : '\n' ∉ cs.takeWhile (· ≠ '\n') := by
  intro hmem
  have hne := List.mem_takeWhile_imp hmem
  exact absurd rfl (of_decide_eq_true hne)

theorem trivia_splitTrivia (cs : List Char) :
    Trivia (splitTrivia cs).1 (splitTrivia cs).2 ∧ startsTrivia (splitTrivia cs).2 = false := by
  fun_induction splitTrivia cs with
  | case1 => exact ⟨.nil, rfl⟩
  | case2 cs more rest heq ih =>
    -- The comment ends where the text behind it begins, and that is at a line feed or the end.
    have happend := splitTrivia_append (cs.dropWhile (· ≠ '\n'))
    rw [heq] at happend ih
    refine ⟨.comment (notMem_takeWhile cs) ?_ ih.1, ih.2⟩
    rw [happend]
    exact endsLine_dropWhile cs
  | case3 c cs hslash hc more rest heq ih =>
    rw [heq] at ih
    exact ⟨.separator hc ih.1, ih.2⟩
  | case4 c cs hslash hc =>
    refine ⟨.nil, ?_⟩
    unfold startsTrivia
    split
    next rest heq =>
      cases heq
      exact (hslash _ rfl rfl).elim
    next heq =>
      cases heq
      exact eq_false_of_ne_true hc
    next => rfl

theorem Trivia.startsTrivia {gap rest : List Char} (h : Trivia gap rest) (hgap : gap ≠ []) :
    startsTrivia (gap ++ rest) = true := by
  cases h with
  | nil => contradiction
  | separator hc =>
    rw [List.cons_append]
    unfold ArithVM.startsTrivia
    split
    next => rfl
    next heq =>
      cases heq
      exact hc
    next heq => cases heq
  | comment => rfl

/-! ## Places -/

namespace Cursor

/-- The place behind the text `before`. -/
def behind (before rest : List Char) : Cursor :=
  ⟨rest, byteLength before, 1 + before.count '\n'⟩

theorem start_eq_behind (source : String) : start source = behind [] source.toList := rfl

theorem pass_behind (before ahead text rest : List Char) :
    (behind before ahead).pass text rest = behind (before ++ text) rest := by
  simp only [behind, pass, byteLength_append, List.count_append, Nat.add_assoc]

theorem skipTrivia_behind (before ahead : List Char) :
    (behind before ahead).skipTrivia =
      behind (before ++ (splitTrivia ahead).1) (splitTrivia ahead).2 := by
  show (behind before ahead).pass (splitTrivia ahead).1 (splitTrivia ahead).2 = _
  rw [pass_behind]

end Cursor

/-- The token that a lexeme is behind the text `before`. -/
def Lexeme.token (before : List Char) (lexeme : Lexeme) : Token :=
  ⟨lexeme.kind, String.ofList lexeme.text,
    ⟨byteLength before, byteLength (before ++ lexeme.text)⟩, 1 + before.count '\n'⟩

/-- The end token of a source that is `before`. -/
def Token.finish (before : List Char) : Token :=
  ⟨.endOfInput, "", ⟨byteLength before, byteLength before⟩, 1 + before.count '\n'⟩

theorem Cursor.scan_behind_of_none {before ahead : List Char}
    (h : Lexeme.first? (splitTrivia ahead).2 = none) :
    (behind before ahead).scan =
      (.finish (before ++ (splitTrivia ahead).1),
        behind (before ++ (splitTrivia ahead).1) (splitTrivia ahead).2) := by
  simp only [scan, skipTrivia_behind]
  rw [behind, h]
  rfl

theorem Cursor.scan_behind_of_some {before ahead : List Char} {lexeme : Lexeme}
    (h : Lexeme.first? (splitTrivia ahead).2 = some lexeme) :
    (behind before ahead).scan =
      (lexeme.token (before ++ (splitTrivia ahead).1),
        behind (before ++ (splitTrivia ahead).1 ++ lexeme.text) lexeme.rest) := by
  simp only [scan, skipTrivia_behind, pass_behind]
  rw [behind, h]
  rfl

/-! ## Layouts -/

/-- Behind `before` the text is gaps and these tokens up to the end. -/
inductive Layout : List Char → List Char → Tokens → Prop where
  | finish {before gap : List Char} (hgap : Trivia gap []) :
    Layout before gap ⟨[], .finish (before ++ gap)⟩
  | token {before gap : List Char} {lexeme : Lexeme} {tokens : Tokens}
    (hgap : Trivia gap (lexeme.text ++ lexeme.rest))
    (hstart : startsTrivia (lexeme.text ++ lexeme.rest) = false)
    (hfirst : Lexeme.first? (lexeme.text ++ lexeme.rest) = some lexeme)
    (hrest : Layout (before ++ gap ++ lexeme.text) lexeme.rest tokens) :
    Layout before (gap ++ (lexeme.text ++ lexeme.rest))
      ⟨lexeme.token (before ++ gap) :: tokens.body, tokens.finish⟩

theorem Lexeme.kind_ne_endOfInput {cs : List Char} {lexeme : Lexeme}
    (h : first? cs = some lexeme) : lexeme.kind ≠ .endOfInput := by
  obtain ⟨c, cs, rfl, hfirst⟩ := exists_first_of_first? h
  cases hfirst with
  | word =>
    simp only [word]
    split <;> simp
  | number =>
    unfold number
    split
    · split <;> simp
    · simp
  | string =>
    unfold string
    split <;> simp
  | symbol => simp
  | stray => simp

theorem layout_tokens (before ahead : List Char) :
    Layout before ahead (Cursor.behind before ahead).tokens := by
  obtain ⟨hgap, hstart⟩ := trivia_splitTrivia ahead
  have happend := splitTrivia_append ahead
  rw [Cursor.tokens]
  -- The induction is on the text ahead, which every token makes shorter.
  cases hfirst : Lexeme.first? (splitTrivia ahead).2 with
  | none =>
    rw [Lexeme.first?_eq_none_iff.1 hfirst] at hgap happend
    rw [List.append_nil] at happend
    simp only [Cursor.scan_behind_of_none hfirst]
    rw [dif_pos (show (Token.finish _).kind = .endOfInput from rfl), happend]
    rw [happend] at hgap
    exact .finish hgap
  | some lexeme =>
    have hkind := Lexeme.kind_ne_endOfInput hfirst
    have hlexeme := Lexeme.first?_append hfirst
    simp only [Cursor.scan_behind_of_some hfirst]
    rw [dif_neg (show (lexeme.token _).kind ≠ .endOfInput from hkind)]
    have hshorter : lexeme.rest.length < ahead.length := by
      have hpos := List.length_pos_iff.2 (Lexeme.first?_text_ne_nil hfirst)
      rw [← happend, ← hlexeme]
      simp only [List.length_append]
      omega
    have hrest := layout_tokens (before ++ (splitTrivia ahead).1 ++ lexeme.text) lexeme.rest
    rw [← hlexeme] at hgap hstart hfirst happend
    have hlayout := Layout.token hgap hstart hfirst hrest
    rwa [happend] at hlayout
termination_by ahead.length

theorem layout_ofSource (source : String) :
    Layout [] source.toList (Tokens.ofSource source) := by
  rw [Tokens.ofSource, Cursor.start_eq_behind]
  exact layout_tokens [] source.toList

/-! ## Spans -/

namespace Text

theorem byteLength_pos {text : List Char} (h : text ≠ []) : 0 < byteLength text := by
  cases text with
  | nil => contradiction
  | cons c cs => exact Nat.lt_of_lt_of_le c.utf8Size_pos (Nat.le_add_right ..)

end Text

/-- The spans in front of the tokens, from an offset on. -/
def gapSpans : Nat → List Token → List Span
  | _, [] => []
  | offset, t :: ts => ⟨offset, t.span.start⟩ :: gapSpans t.span.stop ts

/-- At this span of the source stands a gap. -/
def IsGap (source : List Char) (span : Span) (gap : List Char) : Prop :=
  ∃ before rest, source = before ++ (gap ++ rest) ∧
    span = ⟨byteLength before, byteLength (before ++ gap)⟩ ∧ Trivia gap rest

namespace Layout

variable {before rest : List Char} {tokens : Tokens}

theorem finish_eq (h : Layout before rest tokens) :
    tokens.finish = .finish (before ++ rest) := by
  induction h with
  | finish => rfl
  | token _ _ _ _ ih => simpa only [List.append_assoc] using ih

theorem slice?_eq (h : Layout before rest tokens) :
    ∀ t ∈ tokens.toList,
      slice? (before ++ rest) t.span.start t.span.stop = some t.text.toList := by
  induction h with
  | @finish before gap =>
    intro t ht
    rw [List.mem_singleton.1 ht]
    have hslice := slice?_append (before ++ gap) [] []
    rw [List.append_nil, List.append_nil] at hslice
    exact hslice
  | @token before gap lexeme tokens _ _ _ _ ih =>
    intro t ht
    obtain rfl | ht := List.mem_cons.1 ht
    · have hslice := slice?_append (before ++ gap) lexeme.text lexeme.rest
      rw [List.append_assoc before] at hslice
      simpa only [Lexeme.token, String.toList_ofList] using hslice
    · have hslice := ih t ht
      simpa only [List.append_assoc] using hslice

theorem le_start (h : Layout before rest tokens) :
    ∀ t ∈ tokens.toList, byteLength before ≤ t.span.start := by
  induction h with
  | @finish before gap =>
    intro t ht
    rw [List.mem_singleton.1 ht, Token.finish, byteLength_append]
    exact Nat.le_add_right ..
  | @token before gap lexeme tokens _ _ _ _ ih =>
    intro t ht
    obtain rfl | ht := List.mem_cons.1 ht
    · rw [Lexeme.token, byteLength_append]
      exact Nat.le_add_right ..
    · have hle := ih t ht
      rw [byteLength_append, byteLength_append] at hle
      omega

theorem pairwise (h : Layout before rest tokens) :
    tokens.toList.Pairwise fun t u => t.span.stop ≤ u.span.start := by
  induction h with
  | finish => exact List.pairwise_singleton ..
  | token _ _ _ hrest ih => exact List.pairwise_cons.2 ⟨hrest.le_start, ih⟩

theorem start_lt_stop (h : Layout before rest tokens) :
    ∀ t ∈ tokens.body, t.span.start < t.span.stop := by
  induction h with
  | finish => simp
  | @token before gap lexeme tokens _ _ hfirst _ ih =>
    refine List.forall_mem_cons.2 ⟨?_, ih⟩
    have hpos := byteLength_pos (Lexeme.first?_text_ne_nil hfirst)
    show byteLength (before ++ gap) < byteLength (before ++ gap ++ lexeme.text)
    rw [byteLength_append (before ++ gap)]
    omega

/-- Gaps and tokens in turn make up the text. -/
theorem exists_gaps (h : Layout before rest tokens) :
    ∃ gaps,
      List.Forall₂ (IsGap (before ++ rest)) (gapSpans (byteLength before) tokens.toList) gaps ∧
        (List.zipWith (fun gap t => gap ++ t.text.toList) gaps tokens.toList).flatten = rest := by
  induction h with
  | @finish before gap hgap =>
    refine ⟨[gap], .cons ⟨before, [], ?_, rfl, hgap⟩ .nil, ?_⟩
    · rw [List.append_nil]
    · simp [Tokens.toList, Token.finish]
  | @token before gap lexeme tokens hgap _ _ _ ih =>
    obtain ⟨gaps, hgaps, hflatten⟩ := ih
    refine ⟨gap :: gaps, .cons ⟨before, _, rfl, rfl, hgap⟩ ?_, ?_⟩
    · -- The next gap begins where the token stops.
      show List.Forall₂ _ (gapSpans (byteLength (before ++ gap ++ lexeme.text)) tokens.toList) gaps
      simpa only [List.append_assoc] using hgaps
    · have hcons : (⟨lexeme.token (before ++ gap) :: tokens.body, tokens.finish⟩ : Tokens).toList =
          lexeme.token (before ++ gap) :: tokens.toList := rfl
      rw [hcons, List.zipWith_cons_cons, List.flatten_cons, hflatten, Lexeme.token,
        String.toList_ofList, List.append_assoc]

end Layout

namespace Tokens

/-- **Nothing is lost.**  The tokens of a source stand at slices of it, one behind the other, and
    between them is nothing but blanks and comments. -/
theorem lossless (source : String) :
    (∀ t ∈ (ofSource source).toList,
      slice? source.toList t.span.start t.span.stop = some t.text.toList ∧
        (t.kind.error? = none → t.lexeme = t.text)) ∧
    ((ofSource source).toList.Pairwise fun t u => t.span.stop ≤ u.span.start) ∧
    (∀ t ∈ (ofSource source).body, t.kind ≠ .endOfInput ∧ t.span.start < t.span.stop) ∧
    ((ofSource source).finish.kind = .endOfInput ∧
      (ofSource source).finish.span =
        ⟨byteLength source.toList, byteLength source.toList⟩) ∧
    ∃ gaps, List.Forall₂ (IsGap source.toList) (gapSpans 0 (ofSource source).toList) gaps ∧
      (List.zipWith (fun gap t => gap ++ t.text.toList) gaps (ofSource source).toList).flatten =
        source.toList := by
  have hlayout := layout_ofSource source
  refine ⟨?_, hlayout.pairwise, ?_, ⟨kind_finish_ofSource source, ?_⟩, hlayout.exists_gaps⟩
  · intro t ht
    refine ⟨hlayout.slice?_eq t ht, ?_⟩
    intro hkind
    unfold Token.lexeme
    split
    next error herror =>
      rw [herror] at hkind
      contradiction
    next => rfl
  · intro t ht
    exact ⟨kind_ne_endOfInput ht, hlayout.start_lt_stop t ht⟩
  · rw [hlayout.finish_eq]
    rfl

/-- A string behind a comment, and a stray character behind the string. -/
theorem lossless_behind_comment :
    (⟨.string, "\"ö\"", ⟨8, 12⟩, 2⟩ : Token) ∈ (ofSource "x // ä\n\"ö\"?").body ∧
      slice? "x // ä\n\"ö\"?".toList 8 12 = some ['"', 'ö', '"'] ∧
      (⟨.string, "\"ö\"", ⟨8, 12⟩, 2⟩ : Token).lexeme = "\"ö\"" ∧
      ∃ gaps, List.Forall₂ (IsGap "x // ä\n\"ö\"?".toList)
        [⟨0, 0⟩, ⟨1, 8⟩, ⟨12, 12⟩, ⟨13, 13⟩] gaps := by
  have hspans : gapSpans 0 (ofSource "x // ä\n\"ö\"?").toList =
      [⟨0, 0⟩, ⟨1, 8⟩, ⟨12, 12⟩, ⟨13, 13⟩] := by
    decide +kernel
  have ht : (⟨.string, "\"ö\"", ⟨8, 12⟩, 2⟩ : Token) ∈ (ofSource "x // ä\n\"ö\"?").body := by
    decide +kernel
  obtain ⟨htokens, -, -, -, gaps, hgaps, -⟩ := lossless "x // ä\n\"ö\"?"
  obtain ⟨hslice, hlexeme⟩ := htokens _ (List.mem_append_left _ ht)
  rw [hspans] at hgaps
  exact ⟨ht, hslice, hlexeme rfl, gaps, hgaps⟩

end Tokens

end ArithVM
