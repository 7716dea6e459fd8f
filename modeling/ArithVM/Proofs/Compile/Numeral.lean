import ArithVM.Proofs.Compile.Acceptance
import ArithVM.Proofs.Token.Layout
import ArithVM.Proofs.Token.Pattern

/-!
# Numerals as sources

A numeral is one token, and with a minus sign in front of it, it is two.  Either way it is a whole
source, and the value of that is the value of the literal, negated if the sign is there.
-/

namespace ArithVM

open Chunk

/-! ## Tokens -/

namespace Cursor

theorem tokens_behind_nil (before : List Char) :
    (behind before []).tokens = ⟨[], .finish before⟩ := by
  have hfirst : Lexeme.first? (splitTrivia []).2 = none := by
    rw [splitTrivia]
    rfl
  rw [tokens]
  simp only [scan_behind_of_none hfirst]
  rw [dif_pos (show (Token.finish _).kind = .endOfInput from rfl), splitTrivia, List.append_nil]

theorem tokens_behind {before : List Char} {c : Char} {cs : List Char} {lexeme : Lexeme}
    (hc : isSeparator c = false) (hslash : c ≠ '/') (h : Lexeme.first? (c :: cs) = some lexeme) :
    (behind before (c :: cs)).tokens =
      let following := (behind (before ++ lexeme.text) lexeme.rest).tokens
      ⟨lexeme.token before :: following.body, following.finish⟩ := by
  have hgap : splitTrivia (c :: cs) = ([], c :: cs) := by
    rw [splitTrivia, if_neg (by rw [hc]; decide)]
    intro _ hc'
    contradiction
  have hfirst : Lexeme.first? (splitTrivia (c :: cs)).2 = some lexeme := by
    rw [hgap]
    exact h
  -- Nothing is skipped, so the scanner stands right before the lexeme.
  rw [tokens]
  simp only [scan_behind_of_some hfirst]
  rw [dif_neg (show (lexeme.token _).kind ≠ .endOfInput from Lexeme.kind_ne_endOfInput h), hgap,
    List.append_nil]

end Cursor

theorem IsNumeral.exists_cons {text : List Char} (h : IsNumeral text) :
    ∃ c cs, text = c :: cs ∧ isDigit c := by
  rcases h with ⟨whole, hwhole, htext⟩
  rcases List.exists_cons_of_ne_nil hwhole.1 with ⟨c, cs, rfl⟩
  have hc := hwhole.2 c List.mem_cons_self
  rcases htext with rfl | ⟨fraction, -, rfl⟩
  · exact ⟨c, cs, rfl, hc⟩
  · exact ⟨c, cs ++ '.' :: fraction, rfl, hc⟩

namespace Lexeme

theorem number_of_isNumeral {text : List Char} (h : IsNumeral text) :
    number text = ⟨.number, text, []⟩ := by
  have happend := number_append text
  have hlength := congrArg List.length happend
  have hle := length_le_number h (List.prefix_refl text)
  have hkind := kind_number text
  rw [List.length_append] at hlength
  have hrest : (number text).rest = [] := List.eq_nil_of_length_eq_zero (by omega)
  rw [hrest, List.append_nil] at happend
  generalize number text = lexeme at happend hkind hrest
  cases lexeme
  subst happend hkind hrest
  rfl

theorem first?_of_isNumeral {text : List Char} (h : IsNumeral text) :
    first? text = some ⟨.number, text, []⟩ := by
  rcases h.exists_cons with ⟨c, cs, rfl, hc⟩
  have hword : ¬ isWordStart c := by
    intro hword
    rw [isDigit_eq_false_of_isWordStart hword] at hc
    contradiction
  rw [first?, if_neg hword, if_pos hc, number_of_isNumeral h]

theorem first?_minus (cs : List Char) :
    first? ('-' :: cs) = some ⟨.symbol .minus, ['-'], cs⟩ :=
  rfl

end Lexeme

namespace Tokens

theorem tokens_of_isNumeral {text : List Char} (h : IsNumeral text) (before : List Char) :
    (Cursor.behind before text).tokens.body = [Lexeme.token before ⟨.number, text, []⟩] := by
  have hfirst := Lexeme.first?_of_isNumeral h
  rcases h.exists_cons with ⟨c, cs, rfl, hc⟩
  have hseparator : isSeparator c = false := by
    cases hc' : isSeparator c with
    | false => rfl
    | true =>
      simp only [isSeparator, Bool.or_eq_true, decide_eq_true_eq] at hc'
      rcases hc' with ((rfl | rfl) | rfl) | rfl <;> contradiction
  have hslash : c ≠ '/' := by
    rintro rfl
    contradiction
  rw [Cursor.tokens_behind hseparator hslash hfirst, Cursor.tokens_behind_nil]

theorem tokens_of_minus {text : List Char} (h : IsNumeral text) (before : List Char) :
    (Cursor.behind before ('-' :: text)).tokens.body =
      [Lexeme.token before ⟨.symbol .minus, ['-'], text⟩,
        Lexeme.token (before ++ ['-']) ⟨.number, text, []⟩] := by
  rw [Cursor.tokens_behind (by decide) (by decide) (Lexeme.first?_minus text)]
  dsimp only
  rw [tokens_of_isNumeral h]

end Tokens

theorem Value.ofLiteral_ofList (text : List Char) :
    ofLiteral (String.ofList text) = ofRat (literalRat text) := by
  rw [ofLiteral, String.toList_ofList]

/-- A numeral, with a minus sign or without one, compiles to an expression of its value. -/
theorem compile_of_isNumeral {source : String} {text : List Char} (h : IsNumeral text)
    (negative : Bool) (hsource : source.toList = if negative then '-' :: text else text) :
    ∃ (e : Expr) (line : Nat), Chunk.compile source = .ok (e.chunk line) ∧
      e.numbers.length ≤ maxConstants ∧
      e.eval = if negative then -Value.ofRat (Value.literalRat text)
        else Value.ofRat (Value.literalRat text) := by
  have htokens : (Tokens.ofSource source).body = (Cursor.behind [] source.toList).tokens.body := rfl
  rw [hsource] at htokens
  let number (before : List Char) : Token := Lexeme.token before ⟨.number, text, []⟩
  have hone : 1 ≤ maxConstants := by decide
  cases negative with
  | true =>
    let sign : Token := Lexeme.token [] ⟨.symbol .minus, ['-'], text⟩
    have hderives : Derives .term (.negate sign (.number (number ['-'])))
        (Tokens.ofSource source).body := by
      rw [htokens, if_pos rfl, Tokens.tokens_of_minus h]
      exact .ofFactor (.ofUnary (.negate rfl (.number rfl)))
    -- The sign opens a level and the number one below it.
    have hlevel : 2 ≤ maxLevels := by decide
    refine ⟨_, _, compile_eq_ok_iff.2 ⟨_, hderives, hlevel, hone, rfl⟩, hone, ?_⟩
    exact congrArg (- ·) (Value.ofLiteral_ofList text)
  | false =>
    have hderives : Derives .term (.number (number [])) (Tokens.ofSource source).body := by
      rw [htokens, if_neg (by decide), Tokens.tokens_of_isNumeral h]
      exact .ofFactor (.ofUnary (.number rfl))
    have hlevel : 1 ≤ maxLevels := by decide
    refine ⟨_, _, compile_eq_ok_iff.2 ⟨_, hderives, hlevel, hone, rfl⟩, hone, ?_⟩
    exact Value.ofLiteral_ofList text

end ArithVM
