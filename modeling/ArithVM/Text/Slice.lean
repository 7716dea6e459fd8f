/-!
# Slices — texts cut at byte offsets

Positions in a source are byte offsets into its UTF-8 form, while the text itself is a list of
characters.  A cut is possible only between two characters; `splitBytes?` finds it by walking the
characters and counting the bytes of each.  Its law `splitBytes?_eq_some_iff` says that a cut at
byte `n` is the unique way to write the text as a part of exactly `n` bytes and a rest, and a slice
is two such cuts.
-/

namespace ArithVM.Text

/-- The number of bytes that a text takes in UTF-8. -/
def byteLength : List Char → Nat
  | [] => 0
  | c :: cs => c.utf8Size + byteLength cs

theorem byteLength_append (as bs : List Char) :
    byteLength (as ++ bs) = byteLength as + byteLength bs := by
  induction as with
  | nil => simp [byteLength]
  | cons c cs ih => simp [byteLength, ih, Nat.add_assoc]

/-- Cuts a text after its first `n` bytes.  There is no such cut inside a character or past the
    end of the text. -/
def splitBytes? : Nat → List Char → Option (List Char × List Char)
  | 0, cs => some ([], cs)
  | _ + 1, [] => none
  | n + 1, c :: cs =>
    if c.utf8Size ≤ n + 1 then
      (splitBytes? (n + 1 - c.utf8Size) cs).map fun parts => (c :: parts.1, parts.2)
    else
      none

theorem splitBytes?_byteLength_append (as bs : List Char) :
    splitBytes? (byteLength as) (as ++ bs) = some (as, bs) := by
  induction as with
  | nil => simp [byteLength, splitBytes?]
  | cons c cs ih =>
    have hpos := c.utf8Size_pos
    obtain ⟨n, hn⟩ : ∃ n, c.utf8Size + byteLength cs = n + 1 :=
      ⟨c.utf8Size + byteLength cs - 1, by omega⟩
    have hrest : n + 1 - c.utf8Size = byteLength cs := by omega
    have hle : c.utf8Size ≤ n + 1 := by omega
    simp [byteLength, hn, splitBytes?, hle, hrest, ih]

theorem splitBytes?_eq_some_iff {n : Nat} {cs as bs : List Char} :
    splitBytes? n cs = some (as, bs) ↔ cs = as ++ bs ∧ byteLength as = n := by
  constructor
  · intro h
    fun_induction splitBytes? n cs generalizing as bs with
    | case1 cs => simp_all [byteLength]
    | case2 n => simp at h
    | case3 n c cs hle ih =>
      obtain ⟨⟨front, rest⟩, hparts, heq⟩ := Option.map_eq_some_iff.1 h
      obtain ⟨hcs, hlen⟩ := ih hparts
      simp only [Prod.mk.injEq] at heq
      obtain ⟨rfl, rfl⟩ := heq
      exact ⟨by simp [hcs], by simp only [byteLength, hlen]; omega⟩
    | case4 n c cs hle => simp at h
  · rintro ⟨rfl, rfl⟩
    exact splitBytes?_byteLength_append as bs

/-- The text between two byte offsets, if both fall between characters of `text` and are in
    order. -/
def slice? (text : List Char) (start stop : Nat) : Option (List Char) :=
  if start ≤ stop then do
    let (_, tail) ← splitBytes? start text
    let (front, _) ← splitBytes? (stop - start) tail
    return front
  else
    none

theorem slice?_append (front text rest : List Char) :
    slice? (front ++ (text ++ rest)) (byteLength front) (byteLength (front ++ text)) =
      some text := by
  rw [byteLength_append, slice?, if_pos (Nat.le_add_right ..), splitBytes?_byteLength_append,
    Nat.add_sub_cancel_left]
  show (splitBytes? (byteLength text) (text ++ rest)).bind (fun parts => some parts.1) = _
  rw [splitBytes?_byteLength_append]
  rfl

end ArithVM.Text
