import ArithVM.Text.Padding
import Mathlib.Data.List.DropRight

/-!
# Trailing characters

Cutting one character off the end of a text, as often as it stands there, leaves the text that was
there before it, and that is the only way to split the text so.
-/

namespace ArithVM.Text

variable {c : Char} {text : List Char}

theorem mem_of_mem_dropTrailing {p : Char → Bool} (h : c ∈ dropTrailing p text) : c ∈ text :=
  (List.rdropWhile_prefix p text).mem h

theorem exists_dropTrailing_append (c : Char) (text : List Char) :
    ∃ count, text = dropTrailing (· = c) text ++ List.replicate count c := by
  have hcut : text.rtakeWhile (· = c) = List.replicate (text.rtakeWhile (· = c)).length c := by
    apply List.eq_replicate_of_mem
    intro d hd
    have htaken := List.mem_rtakeWhile_imp hd
    exact of_decide_eq_true htaken
  refine ⟨(text.rtakeWhile (· = c)).length, ?_⟩
  rw [← hcut]
  exact (List.rdropWhile_append_rtakeWhile ..).symm

theorem getLast?_dropTrailing (c : Char) (text : List Char) :
    (dropTrailing (· = c) text).getLast? ≠ some c := by
  intro hlast
  have hne : dropTrailing (· = c) text ≠ [] := List.ne_nil_of_mem (List.mem_of_getLast? hlast)
  rw [List.getLast?_eq_some_getLast hne, Option.some.injEq] at hlast
  exact List.rdropWhile_last_not (· = c) text hne (decide_eq_true hlast)

theorem dropTrailing_of_getLast? (h : text.getLast? ≠ some c) :
    dropTrailing (· = c) text = text := by
  apply List.rdropWhile_eq_self_iff.2
  intro hne hlast
  rw [List.getLast?_eq_some_getLast hne, of_decide_eq_true hlast] at h
  contradiction

theorem dropTrailing_append_replicate (h : text.getLast? ≠ some c) (count : Nat) :
    dropTrailing (· = c) (text ++ List.replicate count c) = text := by
  induction count with
  | zero => rw [List.replicate_zero, List.append_nil, dropTrailing_of_getLast? h]
  | succ count ih =>
    rw [List.replicate_succ', ← List.append_assoc]
    exact (List.rdropWhile_concat_pos (· = c) _ c (decide_eq_true rfl)).trans ih

end ArithVM.Text
