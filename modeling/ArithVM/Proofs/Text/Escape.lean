import ArithVM.Proofs.Text.OneLine
import ArithVM.Proofs.Token.Pattern

/-!
# Escape sequences — what a terminal makes of a text

A terminal shows the characters of a text one by one.  Only an escape character, an opening bracket,
digits and semicolons, and the letter `m` behind them are together a switch of the style, which is
not shown.
-/

namespace ArithVM

/-- What a terminal gets to do. -/
inductive Mark where
  /-- To show a character. -/
  | letter (c : Char)
  /-- To switch the style as the parameters say. -/
  | switch (parameters : List Char)
deriving DecidableEq, Repr

namespace Mark

/-- The character that is shown. -/
def letter? : Mark → Option Char
  | .letter c => some c
  | .switch _ => none

/-- The parameters that switch every style off. -/
def reset : List Char := ['0']

/-- Every switch to a style is followed by characters, and by a reset before any other switch. -/
inductive Closed : List Mark → Prop where
  | nil : Closed []
  | letter {c : Char} {later : List Mark} (h : Closed later) : Closed (.letter c :: later)
  | styled {parameters text : List Char} {later : List Mark} (hopen : parameters ≠ reset)
    (h : Closed later) :
    Closed (.switch parameters :: (text.map .letter ++ .switch reset :: later))

namespace Closed

variable {front back : List Mark}

theorem append (hfront : Closed front) (hback : Closed back) : Closed (front ++ back) := by
  induction hfront with
  | nil => exact hback
  | letter _ ih => exact .letter ih
  | styled hopen _ ih =>
    rw [List.cons_append, List.append_assoc, List.cons_append]
    exact .styled hopen ih

theorem letters (text : List Char) : Closed (text.map .letter) := by
  induction text with
  | nil => exact .nil
  | cons c cs ih => exact .letter ih

end Closed

end Mark

namespace Text

/-- The characters between the bracket and the `m` of a switch. -/
def isParameter (c : Char) : Bool :=
  isDigit c || c = ';'

/-- The marks of a text from left to right. -/
def marks : List Char → List Mark
  | [] => []
  | '\x1b' :: '[' :: cs =>
    match _ : cs.dropWhile isParameter with
    | 'm' :: rest => .switch (cs.takeWhile isParameter) :: marks rest
    | _ => .letter '\x1b' :: marks ('[' :: cs)
  | c :: cs => .letter c :: marks cs
termination_by text => text.length
decreasing_by
  · have hle := (List.dropWhile_suffix isParameter (l := cs)).length_le
    simp_all only [List.length_cons]
    omega
  · simp only [List.length_cons]
    omega
  · simp only [List.length_cons]
    omega

/-- A text without the switches in it. -/
def withoutSwitches (text : String) : String :=
  String.ofList ((marks text.toList).filterMap Mark.letter?)

/-- There is no escape character in the text. -/
def EscapeFree (text : String) : Prop :=
  '\x1b' ∉ text.toList

instance (text : String) : Decidable (EscapeFree text) :=
  inferInstanceAs (Decidable (_ ∉ _))

theorem marks_append_of_notMem {text : List Char} (h : '\x1b' ∉ text) (rest : List Char) :
    marks (text ++ rest) = text.map .letter ++ marks rest := by
  induction text with
  | nil => rfl
  | cons c cs ih =>
    rcases List.ne_and_not_mem_of_not_mem_cons h with ⟨hc, hcs⟩
    rw [List.cons_append, marks, ih hcs]
    · rfl
    · rintro _ rfl
      contradiction

/-- A switch is read as one mark. -/
theorem marks_switch {parameters : List Char} (h : ∀ c ∈ parameters, isParameter c)
    (rest : List Char) :
    marks ('\x1b' :: '[' :: (parameters ++ 'm' :: rest)) = .switch parameters :: marks rest := by
  rcases takeWhile_append_cons h (show isParameter 'm' = false by decide) rest with ⟨htake, hdrop⟩
  rw [marks]
  split
  next following hfollowing =>
    rw [hdrop] at hfollowing
    cases hfollowing
    rw [htake]
  next hnot => exact absurd hdrop (hnot rest)

namespace EscapeFree

@[simp]
theorem append_iff {a b : String} : EscapeFree (a ++ b) ↔ EscapeFree a ∧ EscapeFree b := by
  simp only [EscapeFree, String.toList_append, List.mem_append, not_or]

@[simp]
theorem repr (n : Nat) : EscapeFree n.repr :=
  notMem_toString_nat (by decide) n

@[simp]
theorem fill_blank (count : Nat) : EscapeFree (fill count ' ') :=
  notMem_fill (by decide) count

@[simp]
theorem fill_caret (count : Nat) : EscapeFree (fill count '^') :=
  notMem_fill (by decide) count

end EscapeFree

end Text

end ArithVM
