import ArithVM.Proofs.Token.Layout
import ArithVM.Token.Scanner
import Mathlib.Data.List.Basic
import Mathlib.Data.List.ReduceOption

/-!
# Requests — two ways to ask one scanner

A scanner may be asked for tokens in both of its ways, in any order.  However the two are mixed, its
answers are the tokens of the source from the first to the last, and from there on the end token
again and again.  Only `next?` ever has no answer, and only after it has itself answered with the
end token.
-/

namespace ArithVM

/-! ## The sequence of tokens, repeated at its end -/

namespace Cursor

theorem tokens_of_end {c : Cursor} (h : c.scan.1.kind = .endOfInput) :
    c.tokens = ⟨[], c.scan.1⟩ := by
  rw [tokens, dif_pos h]

theorem tokens_of_ne_end {c : Cursor} (h : c.scan.1.kind ≠ .endOfInput) :
    c.tokens = ⟨c.scan.1 :: c.scan.2.tokens.body, c.scan.2.tokens.finish⟩ := by
  rw [tokens, dif_neg h]

/-- At the end there is nothing to skip. -/
theorem skipTrivia_of_rest_eq_nil {c : Cursor} (h : c.rest = []) : c.skipTrivia = c := by
  obtain ⟨rest, offset, line⟩ := c
  subst h
  rw [skipTrivia, splitTrivia]
  rfl

/-- Behind the end token the end token comes again. -/
theorem scan_scan_of_end {c : Cursor} (h : c.scan.1.kind = .endOfInput) :
    c.scan.2.scan = c.scan := by
  cases hfirst : Lexeme.first? c.skipTrivia.rest with
  | none =>
    have hscan : c.scan.2 = c.skipTrivia := by simp only [scan, hfirst]
    have hskip := skipTrivia_of_rest_eq_nil (Lexeme.first?_eq_none_iff.1 hfirst)
    rw [hscan, scan, hskip, scan]
  | some lexeme =>
    simp only [scan, hfirst] at h
    exact absurd h (Lexeme.kind_ne_endOfInput hfirst)

end Cursor

/-- The first `count` tokens, if the end token is repeated. -/
def Tokens.front (tokens : Tokens) (count : Nat) : List Token :=
  (tokens.toList ++ List.replicate count tokens.finish).take count

theorem Cursor.front_tokens_succ (c : Cursor) (count : Nat) :
    c.tokens.front (count + 1) = c.scan.1 :: c.scan.2.tokens.front count := by
  by_cases hend : c.scan.1.kind = .endOfInput
  · have hnext : c.scan.2.tokens = c.tokens := by
      have hscan := scan_scan_of_end hend
      rw [tokens_of_end hend, tokens_of_end (by rw [hscan]; exact hend), hscan]
    rw [hnext, tokens_of_end hend]
    simp [Tokens.front, Tokens.toList, ← List.replicate_succ]
  · rw [tokens_of_ne_end hend]
    simp only [Tokens.front, Tokens.toList, List.cons_append, List.take_succ_cons]
    -- One more copy of the end token behind `count` tokens changes nothing.
    rw [List.replicate_succ', ← List.append_assoc, List.take_append_of_le_length]
    simp only [List.length_append, List.length_replicate]
    omega

/-! ## Requests -/

/-- A way to ask a scanner for a token. -/
inductive Request where
  | scan
  | next
deriving DecidableEq, Repr

namespace Request

/-- What a scanner answers, and the scanner behind that. -/
def answer (s : Scanner) : Request → Option Token × Scanner
  | .scan => (some s.scan.1, s.scan.2)
  | .next => s.next?

/-- All that a scanner can do when it is asked. -/
inductive Answers (s : Scanner) : Request → Option Token × Scanner → Prop where
  | scan : Answers s .scan (some s.cursor.scan.1, ⟨s.cursor.scan.2, s.ended⟩)
  | next (h : s.ended = false) : Answers s .next
    (some s.cursor.scan.1, ⟨s.cursor.scan.2, decide (s.cursor.scan.1.kind = .endOfInput)⟩)
  | stopped (h : s.ended = true) : Answers s .next (none, s)

theorem answers_answer (s : Scanner) (request : Request) :
    Answers s request (request.answer s) := by
  cases request with
  | scan => exact .scan
  | next =>
    unfold answer Scanner.next?
    cases h : s.ended with
    | true => exact .stopped h
    | false => exact .next h

end Request

namespace Scanner

/-- What a scanner answers to one request after the other. -/
def answers : Scanner → List Request → List (Option Token)
  | _, [] => []
  | s, request :: requests => (request.answer s).1 :: answers (request.answer s).2 requests

theorem length_answers (s : Scanner) (requests : List Request) :
    (s.answers requests).length = requests.length := by
  induction requests generalizing s with
  | nil => rfl
  | cons request requests ih => rw [answers, List.length_cons, List.length_cons, ih]

/-- The answers that are tokens are the tokens from the scanner's place on. -/
theorem reduceOption_answers (s : Scanner) (requests : List Request) :
    (s.answers requests).reduceOption =
      s.cursor.tokens.front (s.answers requests).reduceOption.length := by
  induction requests generalizing s with
  | nil => rfl
  | cons request requests ih =>
    have hanswers := request.answers_answer s
    have hrest := ih (request.answer s).2
    rw [answers]
    generalize request.answer s = answer at hanswers hrest
    cases hanswers with
    | scan =>
      rw [List.reduceOption_cons_of_some, List.length_cons, Cursor.front_tokens_succ, ← hrest]
    | next =>
      rw [List.reduceOption_cons_of_some, List.length_cons, Cursor.front_tokens_succ, ← hrest]
    | stopped =>
      rw [List.reduceOption_cons_of_none]
      exact hrest

/-- There is no answer to a request exactly if it is `next` and the scanner has ended, before the
    requests or by an earlier `next` among them. -/
theorem getElem?_answers_eq_none_iff (s : Scanner) (requests : List Request) (i : Nat) :
    (s.answers requests)[i]? = some none ↔ requests[i]? = some .next ∧ (s.ended = true ∨
      ∃ j < i, requests[j]? = some .next ∧
        ∃ t : Token, (s.answers requests)[j]? = some (some t) ∧ t.kind = .endOfInput) := by
  induction requests generalizing s i with
  | nil => simp [answers]
  | cons request requests ih =>
    have hanswers := request.answers_answer s
    cases i with
    | zero =>
      rw [answers, List.getElem?_cons_zero, List.getElem?_cons_zero]
      generalize request.answer s = answer at hanswers
      cases hanswers with
      | scan => simp
      | next h => simp [h]
      | stopped h => simp [h]
    | succ i =>
      have hrest := ih (request.answer s).2 i
      rw [answers, Nat.exists_lt_succ_left]
      simp only [List.getElem?_cons_succ, List.getElem?_cons_zero]
      generalize request.answer s = answer at hanswers hrest
      rw [hrest]
      cases hanswers with
      | scan => simp
      | next h => simp [h]
      | stopped h => simp [h]

/-- **Two ways to ask, one sequence.**  Whatever a scanner is asked, its answers are the tokens of
    the source in order, with the end token repeated as often as there are further answers.  It has
    no answer exactly to a `next` behind an earlier `next` that was answered with the end. -/
theorem answers_to_requests (source : String) (requests : List Request) :
    ((new source).answers requests).length = requests.length ∧
    (∃ count, ((new source).answers requests).reduceOption <+:
      (Tokens.ofSource source).toList ++ List.replicate count (Tokens.ofSource source).finish) ∧
    ∀ i : Nat, ((new source).answers requests)[i]? = some none ↔ requests[i]? = some .next ∧
      ∃ j < i, requests[j]? = some .next ∧
        ∃ t : Token, ((new source).answers requests)[j]? = some (some t) ∧
          t.kind = .endOfInput := by
  refine ⟨length_answers _ _, ?_, ?_⟩
  · refine ⟨((new source).answers requests).reduceOption.length, ?_⟩
    conv_lhs => rw [reduceOption_answers]
    exact List.take_prefix _ _
  · intro i
    rw [getElem?_answers_eq_none_iff]
    simp [new]

/-- An end token out of `scan` does not stop `next`. -/
example : ((new "x").answers [.scan, .scan, .next, .scan, .next]).map (·.map (·.kind)) =
    [some .identifier, some .endOfInput, some .endOfInput, some .endOfInput, none] := by
  decide +kernel

end Scanner

end ArithVM
