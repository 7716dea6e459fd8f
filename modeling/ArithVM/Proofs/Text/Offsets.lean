import ArithVM.Proofs.LineTable.Position

/-!
# Offsets — where the characters of a text stand

Every character of a text stands at an offset of its own, the one behind the bytes of those in front
of it.  An offset that falls inside a character cuts it; at any other one a text falls into two
parts, and the characters between two such offsets are a part of the text.
-/

namespace ArithVM

open Text

namespace Text

/-- The characters of a text that begins at `offset`, each with the offset at which it stands. -/
def placed : Nat → List Char → List (Nat × Char)
  | _, [] => []
  | offset, c :: cs => (offset, c) :: placed (offset + c.utf8Size) cs

/-- The offset falls inside a character of a text that begins at `base`. -/
def Cuts (base : Nat) (text : List Char) (offset : Nat) : Prop :=
  ∃ p ∈ placed base text, p.1 < offset ∧ offset < p.1 + p.2.utf8Size

instance (base : Nat) (text : List Char) (offset : Nat) : Decidable (Cuts base text offset) :=
  inferInstanceAs (Decidable (∃ p ∈ _, _))

variable {base offset : Nat} {text front part back : List Char} {p : Nat × Char}

/-! ## Characters -/

@[simp]
theorem length_placed (base : Nat) (text : List Char) :
    (placed base text).length = text.length := by
  induction text generalizing base with
  | nil => rfl
  | cons c cs ih => rw [placed, List.length_cons, List.length_cons, ih]

theorem length_le_byteLength (text : List Char) : text.length ≤ byteLength text := by
  induction text with
  | nil => exact Nat.le_refl _
  | cons c cs ih =>
    have hpos := c.utf8Size_pos
    rw [List.length_cons, byteLength]
    omega

theorem placed_append (base : Nat) (front back : List Char) :
    placed base (front ++ back) = placed base front ++ placed (base + byteLength front) back := by
  induction front generalizing base with
  | nil => rfl
  | cons c cs ih =>
    rw [List.cons_append, placed, placed, ih, List.cons_append, byteLength, Nat.add_assoc]

theorem bounds_of_mem_placed (h : p ∈ placed base text) :
    base ≤ p.1 ∧ p.1 + p.2.utf8Size ≤ base + byteLength text := by
  induction text generalizing base with
  | nil => contradiction
  | cons c cs ih =>
    rw [byteLength]
    rcases List.mem_cons.1 h with rfl | hmem
    · dsimp only
      omega
    · have hbounds := ih hmem
      omega

theorem lt_of_mem_placed (h : p ∈ placed base text) :
    base ≤ p.1 ∧ p.1 < base + byteLength text := by
  have hbounds := bounds_of_mem_placed h
  have hpos := p.2.utf8Size_pos
  omega

/-- Whatever condition holds of just the characters between two offsets picks out the part of the
    text that stands there. -/
theorem filter_placed {q : Nat × Char → Bool}
    (h : ∀ p ∈ placed base (front ++ (part ++ back)),
      q p = true ↔ base + byteLength front ≤ p.1 ∧ p.1 < base + byteLength (front ++ part)) :
    (placed base (front ++ (part ++ back))).filter q =
      placed (base + byteLength front) part := by
  rw [byteLength_append] at h
  rw [placed_append, placed_append] at h ⊢
  have hfront : (placed base front).filter q = [] := by
    apply List.filter_eq_nil_iff.2
    intro p hp
    have hlt := lt_of_mem_placed hp
    rw [h p (List.mem_append_left _ hp)]
    omega
  have hpart : (placed (base + byteLength front) part).filter q =
      placed (base + byteLength front) part := by
    apply List.filter_eq_self.2
    intro p hp
    have hlt := lt_of_mem_placed hp
    rw [h p (List.mem_append_right _ (List.mem_append_left _ hp))]
    omega
  have hback : (placed (base + byteLength front + byteLength part) back).filter q = [] := by
    apply List.filter_eq_nil_iff.2
    intro p hp
    have hle := lt_of_mem_placed hp
    rw [h p (List.mem_append_right _ (List.mem_append_right _ hp))]
    omega
  rw [List.filter_append, List.filter_append, hfront, hpart, hback, List.nil_append,
    List.append_nil]

/-! ## Cuts -/

theorem Cuts.of_part (h : Cuts (base + byteLength front) part offset) (back : List Char) :
    Cuts base (front ++ (part ++ back)) offset := by
  rcases h with ⟨p, hp, hcut⟩
  refine ⟨p, ?_, hcut⟩
  rw [placed_append, placed_append]
  exact List.mem_append_right _ (List.mem_append_left _ hp)

theorem Cuts.bounds (h : Cuts base text offset) :
    base < offset ∧ offset < base + byteLength text := by
  rcases h with ⟨p, hp, hcut⟩
  have hbounds := bounds_of_mem_placed hp
  omega

theorem not_cuts_of_append (front back : List Char) :
    ¬ Cuts base (front ++ back) (base + byteLength front) := by
  rintro ⟨p, hp, hlt, hgt⟩
  rw [placed_append] at hp
  rcases List.mem_append.1 hp with hp | hp
  · have hle := (bounds_of_mem_placed hp).2
    omega
  · have hle := (bounds_of_mem_placed hp).1
    omega

/-- Where no character is cut the text falls into two parts. -/
theorem exists_append_of_not_cuts (h : ¬ Cuts base text offset) :
    ∃ front back, text = front ++ back ∧
      byteLength front = min (offset - base) (byteLength text) := by
  induction text generalizing base with
  | nil => exact ⟨[], [], rfl, by simp [byteLength]⟩
  | cons c cs ih =>
    by_cases hle : offset ≤ base
    · refine ⟨[], c :: cs, rfl, ?_⟩
      rw [byteLength]
      omega
    · have hge : base + c.utf8Size ≤ offset := by
        by_contra hlt
        exact h ⟨(base, c), List.mem_cons_self, Nat.lt_of_not_le hle, Nat.lt_of_not_le hlt⟩
      have hrest : ¬ Cuts (base + c.utf8Size) cs offset := by
        rintro ⟨p, hp, hcut⟩
        exact h ⟨p, List.mem_cons_of_mem _ hp, hcut⟩
      rcases ih hrest with ⟨front, back, rfl, hlength⟩
      refine ⟨c :: front, back, rfl, ?_⟩
      rw [byteLength, hlength, byteLength]
      omega

theorem splitBytes?_of_cuts (h : Cuts base text offset) :
    splitBytes? (offset - base) text = none := by
  cases hsplit : splitBytes? (offset - base) text with
  | none => rfl
  | some parts =>
    rcases splitBytes?_eq_some_iff.1 hsplit with ⟨htext, hlength⟩
    have hbounds := h.bounds
    rw [htext, show offset = base + byteLength parts.1 by omega] at h
    exact absurd h (not_cuts_of_append parts.1 parts.2)

/-! ## Slices -/

theorem exists_append_of_slice? {start stop : Nat} (h : slice? text start stop = some part) :
    ∃ front back, text = front ++ (part ++ back) ∧ byteLength front = start := by
  unfold slice? at h
  split at h
  · rcases Option.bind_eq_some_iff.1 h with ⟨⟨front, tail⟩, hfront, h⟩
    rcases Option.bind_eq_some_iff.1 h with ⟨⟨part', back⟩, hpart, h⟩
    cases h
    rcases splitBytes?_eq_some_iff.1 hfront with ⟨rfl, hlength⟩
    rcases splitBytes?_eq_some_iff.1 hpart with ⟨rfl, -⟩
    exact ⟨front, back, rfl, hlength⟩
  · contradiction

theorem slice?_of_cuts (h : Cuts base text offset) (stop : Nat) :
    slice? text (offset - base) stop = none := by
  unfold slice?
  split
  · rw [splitBytes?_of_cuts h]
    rfl
  · rfl

theorem slice?_zero_of_cuts (h : Cuts base text offset) :
    slice? text 0 (offset - base) = none := by
  rw [slice?, if_pos (Nat.zero_le _), splitBytes?]
  show (splitBytes? (offset - base) text).bind (fun parts => some parts.1) = none
  rw [splitBytes?_of_cuts h]
  rfl

theorem slice?_zero (front back : List Char) :
    slice? (front ++ back) 0 (byteLength front) = some front :=
  slice?_append [] front back

end Text

/-! ## Boundaries -/

/-- The offset stands between two characters of a source, at one of its ends, or past the last. -/
def IsBoundary (source : String) (offset : Nat) : Prop :=
  source.utf8ByteSize < offset ∨
    ∃ before after : String, source = before ++ after ∧ before.utf8ByteSize = offset

theorem IsBoundary.not_cuts {source : String} {offset : Nat} (h : IsBoundary source offset) :
    ¬ Cuts 0 source.toList offset := by
  rcases h with hlt | ⟨before, after, rfl, rfl⟩
  · intro hcuts
    have hbounds := hcuts.bounds
    rw [byteLength_toList] at hbounds
    omega
  · rw [String.toList_append, ← byteLength_toList, ← Nat.zero_add (byteLength _)]
    exact not_cuts_of_append before.toList after.toList

end ArithVM
