import ArithVM.Chunk.Compile
import ArithVM.Proofs.Token.Spacing

/-!
# Compiling does not see the spacing

Lines and spans of tokens are only passed on: the lines into the chunk, the spans into an error.
Two sources whose tokens say the same therefore go through the compiler in lockstep, with the same
levels open and the same code written, up to the lines.  With blanks between its tokens a source
compiles to the same code and constants, or is refused for the same reason at the same token.
-/

namespace ArithVM

/-! ## What the compiler reads of a token -/

namespace Token

variable {t t' : Token}

theorem kind_eq_of_content (h : t.content = t'.content) : t.kind = t'.kind :=
  congrArg Prod.fst h

/-- The text of a proper token is what a listing shows of it. -/
theorem text_eq_of_content (h : t.content = t'.content)
    (hproper : ∀ error, t.kind ≠ .invalid error) : t.text = t'.text := by
  have hlexeme : t.lexeme = t'.lexeme := congrArg Prod.snd h
  unfold lexeme at hlexeme
  rw [← kind_eq_of_content h] at hlexeme
  split at hlexeme
  next error herror => exact absurd herror (hproper error)
  next => exact hlexeme

end Token

/-! ## States of the compiler -/

/-- The same levels are open, it may be on other lines. -/
inductive Levels.SameShape : Levels → Levels → Prop where
  | program : SameShape .program .program
  | group {outer outer' : Levels} (h : SameShape outer outer') :
    SameShape (.group outer) (.group outer')
  | negation {line line' : Nat} {outer outer' : Levels} (h : SameShape outer outer') :
    SameShape (.negation line outer) (.negation line' outer')
  | operand {op : Operator} {line line' : Nat} {outer outer' : Levels}
    (h : SameShape outer outer') : SameShape (.operand op line outer) (.operand op line' outer')

/-- The same code with the same constants, it may be on other lines. -/
structure Chunk.SameCode (c c' : Chunk) : Prop where
  code : c.code = c'.code
  constants : c.constants = c'.constants

namespace Levels.SameShape

variable {levels levels' : Levels}

theorem depth_eq (h : SameShape levels levels') : levels.depth = levels'.depth := by
  induction h with
  | program => rfl
  | group _ ih => rw [depth, depth, ih]
  | negation _ ih => rw [depth, depth, ih]
  | operand _ ih => rw [depth, depth, ih]

theorem continuation?_eq (h : SameShape levels levels') (kind : TokenKind) :
    levels.continuation? kind = levels'.continuation? kind := by
  cases h <;> rfl

end Levels.SameShape

namespace Chunk

variable {c c' : Chunk}

theorem SameCode.writeOp (h : SameCode c c') (op : Opcode) (line line' : Nat) :
    SameCode (c.writeOp op line) (c'.writeOp op line') := by
  refine ⟨?_, h.constants⟩
  show c.code.push op.byte = c'.code.push op.byte
  rw [h.code]

end Chunk

theorem Levels.SameShape.close {levels levels' : Levels} (h : SameShape levels levels')
    (kind : TokenKind) {c c' : Chunk} (hc : c.SameCode c') :
    SameShape (levels.close kind c).1 (levels'.close kind c').1 ∧
      (levels.close kind c).2.SameCode (levels'.close kind c').2 := by
  induction h generalizing c c' with
  | program => exact ⟨.program, hc⟩
  | group h => exact ⟨.group h, hc⟩
  | @negation line line' outer outer' h ih =>
    have heq : continuation? (.negation line outer) kind =
        continuation? (.negation line' outer') kind := rfl
    rw [Levels.close, Levels.close, heq]
    split
    · exact ⟨.negation h, hc⟩
    · exact ih (hc.writeOp .negate line line')
  | @operand op line line' outer outer' h ih =>
    have heq : continuation? (.operand op line outer) kind =
        continuation? (.operand op line' outer') kind := rfl
    rw [Levels.close, Levels.close, heq]
    split
    · exact ⟨.operand h, hc⟩
    · exact ih (hc.writeOp (.operator op) line line')

namespace Chunk

/-! ## Verdicts -/

/-- Chunks with one code and the same constants, or errors that read the same but for line and
    span. -/
inductive SameVerdict : Except CompileError Chunk → Except CompileError Chunk → Prop where
  | accepted {c c' : Chunk} (hcode : c.code = c'.code) (hconstants : c.constants = c'.constants) :
    SameVerdict (.ok c) (.ok c')
  | refused {e e' : CompileError} (hcode : e.code = e'.code) (hmessage : e.message = e'.message)
    (hlocation : e.location = e'.location) : SameVerdict (.error e) (.error e')

theorem SameVerdict.at_token {t t' : Token} (h : t.content = t'.content)
    (cause : CompileError.Cause) : SameVerdict (.error ⟨cause, t⟩) (.error ⟨cause, t'⟩) := by
  refine .refused rfl rfl ?_
  simp only [CompileError.location, ← Token.kind_eq_of_content h]
  split
  next => rfl
  next => rfl
  next hproper => rw [Token.text_eq_of_content h hproper]

variable {c c' : Chunk} {ts ts' : List Token} {t t' : Token}

theorem sameVerdict_checkNext (h : ts.map Token.content = ts'.map Token.content)
    {result result' : Except CompileError Chunk} (hresult : SameVerdict result result') :
    SameVerdict (checkNext ts >>= fun _ => result) (checkNext ts' >>= fun _ => result') := by
  cases ts with
  | nil =>
    rw [List.map_eq_nil_iff.1 h.symm]
    exact hresult
  | cons t rest =>
    obtain ⟨t', rest', rfl, ht, -⟩ := List.map_eq_cons_iff.1 h.symm
    simp only [checkNext, Token.kind_eq_of_content ht]
    cases t.kind.error? with
    | none => exact hresult
    | some error => exact .at_token ht.symm _

theorem sameVerdict_writeNumber (hc : c.SameCode c') (ht : t.content = t'.content)
    (hproper : ∀ error, t.kind ≠ .invalid error) {next next' : Chunk → Except CompileError Chunk}
    (hnext : ∀ d d', SameCode d d' → SameVerdict (next d) (next' d')) :
    SameVerdict (c.writeNumber t >>= next) (c'.writeNumber t' >>= next') := by
  simp only [writeNumber, writeConstant, addConstant, ← hc.constants,
    ← Token.text_eq_of_content ht hproper]
  by_cases hroom : c.constants.size < maxConstants
  · simp only [if_pos hroom]
    apply hnext
    refine ⟨?_, rfl⟩
    show (c.code.push _).push _ = (c'.code.push _).push _
    rw [hc.code]
  · simp only [if_neg hroom]
    exact .at_token ht _

/-! ## The compiler in lockstep -/

/-- From states that differ in lines only, what is left compiles alike. -/
def CompilesAlike (finish finish' : Token) (ts ts' : List Token) : Prop :=
  ∀ (expecting : Expecting) (levels levels' : Levels) (c c' : Chunk),
    levels.SameShape levels' → c.SameCode c' →
      SameVerdict (compileTokens finish expecting levels c ts)
        (compileTokens finish' expecting levels' c' ts')

variable {finish finish' : Token} {levels levels' : Levels}

theorem compilesAlike_nil (hfinish : finish.content = finish'.content) :
    CompilesAlike finish finish' [] [] := by
  intro expecting levels levels' c c' hlevels hc
  cases expecting with
  | operand =>
    rw [compileTokens, compileTokens, ← hlevels.depth_eq]
    split
    · exact .at_token hfinish _
    · exact .at_token hfinish _
  | operator =>
    obtain ⟨hshape, hcode⟩ := hlevels.close finish.kind hc
    rw [compileTokens, compileTokens, ← Token.kind_eq_of_content hfinish]
    generalize levels.close finish.kind c = state at hshape hcode
    generalize levels'.close finish.kind c' = state' at hshape hcode
    obtain ⟨closed, d⟩ := state
    obtain ⟨closed', d'⟩ := state'
    -- Only the program may be left open at the end.
    cases hshape with
    | program =>
      have hret := hcode.writeOp .ret finish.line finish'.line
      exact .accepted hret.code hret.constants
    | group => exact .at_token hfinish _
    | negation => exact .at_token hfinish _
    | operand => exact .at_token hfinish _

theorem sameVerdict_operand (ht : t.content = t'.content)
    (hrest : ts.map Token.content = ts'.map Token.content)
    (ih : CompilesAlike finish finish' ts ts') (hlevels : levels.SameShape levels')
    (hc : c.SameCode c') :
    SameVerdict (compileTokens finish .operand levels c (t :: ts))
      (compileTokens finish' .operand levels' c' (t' :: ts')) := by
  rw [compileTokens, compileTokens, ← hlevels.depth_eq]
  split
  · exact .at_token ht _
  · apply sameVerdict_checkNext hrest
    rw [← Token.kind_eq_of_content ht]
    split
    next hkind =>
      apply sameVerdict_writeNumber hc ht (by simp [hkind])
      intro d d' hd
      exact ih _ _ _ _ _ hlevels hd
    next => exact ih _ _ _ _ _ (.group hlevels) hc
    next => exact ih _ _ _ _ _ (.negation hlevels) hc
    next => exact .at_token ht _

theorem sameVerdict_operator (ht : t.content = t'.content)
    (hrest : ts.map Token.content = ts'.map Token.content)
    (ih : CompilesAlike finish finish' ts ts') (hlevels : levels.SameShape levels')
    (hc : c.SameCode c') :
    SameVerdict (compileTokens finish .operator levels c (t :: ts))
      (compileTokens finish' .operator levels' c' (t' :: ts')) := by
  obtain ⟨hshape, hcode⟩ := hlevels.close t.kind hc
  rw [compileTokens, compileTokens, ← Token.kind_eq_of_content ht]
  generalize levels.close t.kind c = state at hshape hcode
  generalize levels'.close t.kind c' = state' at hshape hcode
  obtain ⟨closed, d⟩ := state
  obtain ⟨closed', d'⟩ := state'
  dsimp only at hshape hcode ⊢
  -- One shape decides alike whether the token goes on, closes a group or is refused.
  rw [← hshape.continuation?_eq]
  cases closed.continuation? t.kind with
  | some op => exact sameVerdict_checkNext hrest (ih _ _ _ _ _ (.operand hshape) hcode)
  | none =>
    cases hshape with
    | group houter =>
      dsimp only
      split
      · exact sameVerdict_checkNext hrest (ih _ _ _ _ _ houter hcode)
      · exact .at_token ht _
    | program => exact .at_token ht _
    | negation => exact .at_token ht _
    | operand => exact .at_token ht _

theorem compilesAlike (hfinish : finish.content = finish'.content) :
    ∀ ts ts' : List Token, ts.map Token.content = ts'.map Token.content →
      CompilesAlike finish finish' ts ts' := by
  intro ts
  induction ts with
  | nil =>
    intro ts' h
    rw [List.map_eq_nil_iff.1 h.symm]
    exact compilesAlike_nil hfinish
  | cons t rest ih =>
    intro ts' h
    obtain ⟨t', rest', rfl, ht, hrest⟩ := List.map_eq_cons_iff.1 h.symm
    intro expecting levels levels' c c' hlevels hc
    cases expecting with
    | operand => exact sameVerdict_operand ht.symm hrest.symm (ih _ hrest.symm) hlevels hc
    | operator => exact sameVerdict_operator ht.symm hrest.symm (ih _ hrest.symm) hlevels hc

/-- Sources whose tokens say the same compile alike. -/
theorem sameVerdict_of_contents {source source' : String}
    (h : (Tokens.ofSource source).contents = (Tokens.ofSource source').contents) :
    SameVerdict (compile source) (compile source') := by
  simp only [Tokens.contents, Tokens.toList, List.map_append, List.map_singleton] at h
  obtain ⟨hbody, hfinish⟩ := List.append_inj' h rfl
  exact sameVerdict_checkNext hbody
    (compilesAlike (List.singleton_inj.1 hfinish) _ _ hbody _ _ _ _ _ .program ⟨rfl, rfl⟩)

end Chunk

/-- **Blanks between tokens are irrelevant to compilation.**  At either end of any token of a
    source, the end of input among them, there is a place between two characters, and any blanks put
    there leave the kinds of the tokens and what is shown of them.  Both sources compile, to one code
    with the same constants, or both are refused with one code, message and location. -/
theorem Chunk.compile_with_blanks {source blanks : String} {t : Token} {p : Nat}
    (ht : t ∈ (Tokens.ofSource source).toList) (hp : p = t.span.start ∨ p = t.span.stop)
    (hblanks : ∀ c ∈ blanks.toList, isSeparator c) :
    ∃ front back, source = front ++ back ∧ front.utf8ByteSize = p ∧
      (Tokens.ofSource (front ++ blanks ++ back)).toList.map (fun u => (u.kind, u.lexeme)) =
        (Tokens.ofSource source).toList.map (fun u => (u.kind, u.lexeme)) ∧
      SameVerdict (compile (front ++ blanks ++ back)) (compile source) := by
  obtain ⟨front, back, hsource, hplace, hcontents⟩ :=
    Tokens.exists_place_for_blanks ht hblanks hp
  exact ⟨front, back, hsource, hplace, hcontents, sameVerdict_of_contents hcontents⟩

/-- Behind a comment at the end, the carriage return joins the comment and the rest follows it. -/
theorem Chunk.compile_with_blanks_behind_comment :
    SameVerdict (compile ("-2.5//" ++ "\r\n\t")) (compile "-2.5//") ∧
      (Tokens.ofSource ("-2.5//" ++ "\r\n\t")).toList =
        [⟨.symbol .minus, "-", ⟨0, 1⟩, 1⟩, ⟨.number, "2.5", ⟨1, 4⟩, 1⟩,
          ⟨.endOfInput, "", ⟨9, 9⟩, 2⟩] := by
  have hend : (⟨.endOfInput, "", ⟨6, 6⟩, 1⟩ : Token) ∈ (Tokens.ofSource "-2.5//").toList := by
    decide +kernel
  have hblanks : ∀ c ∈ "\r\n\t".toList, isSeparator c :=
    List.all_eq_true.1 (by decide)
  obtain ⟨front, back, hsource, hplace, -, hverdict⟩ :=
    compile_with_blanks hend (.inl rfl) hblanks
  -- All of the source stands in front of its end.
  have hback : back = "" := by
    have hsize := congrArg String.utf8ByteSize hsource
    rw [String.utf8ByteSize_append, hplace] at hsize
    exact String.utf8ByteSize_eq_zero_iff.1 (Nat.left_eq_add.1 hsize)
  rw [hback, String.append_empty] at hsource hverdict
  rw [← hsource] at hverdict
  exact ⟨hverdict, by decide +kernel⟩

end ArithVM
