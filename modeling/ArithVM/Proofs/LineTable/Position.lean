import ArithVM.LineTable
import Mathlib.Data.List.TakeWhile

/-!
# Lines of offsets — what a line table answers

The table of a source holds the offsets behind its line feeds in ascending order, so the line of an
offset is one more than the line feeds in front of it.  Any search of the table comes to the same
line, whether it hits the beginning of a line or not.
-/

namespace ArithVM

open Text

/-! ## Line feeds as bytes -/

namespace Text

/-- The bytes of a text in UTF-8. -/
def bytes (text : List Char) : List UInt8 :=
  text.flatMap String.utf8EncodeChar

theorem toList_data_toUTF8 (source : String) : source.toUTF8.data.toList = bytes source.toList := by
  rw [String.toUTF8, ← String.utf8Encode_toList, List.utf8Encode, List.toList_data_toByteArray]
  rfl

theorem length_bytes (text : List Char) : (bytes text).length = byteLength text := by
  induction text with
  | nil => rfl
  | cons c cs ih =>
    rw [bytes, List.flatMap_cons, List.length_append, String.length_utf8EncodeChar, byteLength,
      ← ih]
    rfl

theorem byteLength_toList (source : String) : byteLength source.toList = source.utf8ByteSize := by
  rw [← length_bytes, ← toList_data_toUTF8]
  rfl

/-- A line feed takes one byte, and that byte occurs in the form of no other character. -/
theorem count_utf8EncodeChar (c : Char) :
    (String.utf8EncodeChar c).count 10 = if c = '\n' then 1 else 0 := by
  have hbyte {n : Nat} (hn : n < 256) : UInt8.ofNat n = 10 ↔ n = 10 := by
    rw [← UInt8.toNat_inj, UInt8.toNat_ofNat_of_lt' hn]
    rfl
  -- Every byte of a longer form has its highest bit set.
  have hhigh (n : Nat) (more : List UInt8) (hlow : 128 ≤ n) (hn : n < 256) :
      (UInt8.ofNat n :: more).count 10 = more.count 10 :=
    List.count_cons_of_ne (by rw [ne_eq, hbyte hn]; omega)
  have hc : c = '\n' ↔ c.val.toNat = 10 := by
    rw [← Char.val_inj, ← UInt32.toNat_inj]
    rfl
  unfold String.utf8EncodeChar
  rw [if_congr hc rfl rfl]
  generalize c.val.toNat = n
  by_cases hn : n ≤ 127
  · simp only [if_pos hn, List.count_singleton, beq_iff_eq, hbyte (show n < 256 by omega)]
  · rw [if_neg (show ¬ n = 10 by omega), if_neg hn]
    split
    · simp (disch := omega) only [hhigh, List.count_nil]
    split
    · simp (disch := omega) only [hhigh, List.count_nil]
    · simp (disch := omega) only [hhigh, List.count_nil]

theorem count_take_utf8EncodeChar {c : Char} {offset : Nat} (h : offset < c.utf8Size) :
    ((String.utf8EncodeChar c).take offset).count 10 = 0 := by
  by_cases hc : c = '\n'
  · subst hc
    have hzero : offset = 0 := by
      change offset < 1 at h
      omega
    rw [hzero, List.take_zero, List.count_nil]
  · have hfront := List.take_prefix offset (String.utf8EncodeChar c)
    have hle := hfront.sublist.count_le 10
    rw [count_utf8EncodeChar, if_neg hc] at hle
    omega

theorem count_bytes (text : List Char) : (bytes text).count 10 = text.count '\n' := by
  induction text with
  | nil => rfl
  | cons c cs ih =>
    rw [bytes, List.flatMap_cons, List.count_append, count_utf8EncodeChar, List.count_cons, ← ih,
      Nat.add_comm]
    simp only [beq_iff_eq]
    rfl

end Text

/-- The number of line feeds among the first `offset` bytes of a source. -/
def lineFeedsBefore (source : String) (offset : Nat) : Nat :=
  (source.toUTF8.data.toList.take offset).count 10

theorem lineFeedsBefore_eq {source : String} {before rest : List Char}
    (h : source.toList = before ++ rest) :
    lineFeedsBefore source (byteLength before) = before.count '\n' := by
  have hbytes : bytes source.toList = bytes before ++ bytes rest := by
    rw [h, bytes, List.flatMap_append]
    rfl
  rw [lineFeedsBefore, toList_data_toUTF8, hbytes, ← length_bytes, List.take_left, count_bytes]

namespace LineTable

/-! ## Beginnings of lines -/

theorem length_startsAfter (offset : Nat) (text : List Char) :
    (startsAfter offset text).length = text.count '\n' := by
  induction text generalizing offset with
  | nil => rfl
  | cons c cs ih =>
    simp only [startsAfter, List.count_cons, beq_iff_eq]
    split
    · rw [List.length_cons, ih]
    · exact ih _

theorem mem_startsAfter {offset start : Nat} {text : List Char}
    (h : start ∈ startsAfter offset text) :
    offset < start ∧ start ≤ offset + byteLength text := by
  induction text generalizing offset with
  | nil => simp [startsAfter] at h
  | cons c cs ih =>
    have hpos := c.utf8Size_pos
    have hrest (hmem : start ∈ startsAfter (offset + c.utf8Size) cs) :
        offset < start ∧ start ≤ offset + byteLength (c :: cs) := by
      have hbounds := ih hmem
      simp only [byteLength]
      omega
    simp only [startsAfter] at h
    split at h
    · obtain rfl | hmem := List.mem_cons.1 h
      · simp only [byteLength]
        omega
      · exact hrest hmem
    · exact hrest h

theorem pairwise_startsAfter (offset : Nat) (text : List Char) :
    (startsAfter offset text).Pairwise (· < ·) := by
  induction text generalizing offset with
  | nil => exact .nil
  | cons c cs ih =>
    simp only [startsAfter]
    split
    · exact List.pairwise_cons.2 ⟨fun start hmem => (mem_startsAfter hmem).1, ih _⟩
    · exact ih _

theorem pairwise_starts (source : String) : (ofSource source).starts.Pairwise (· < ·) :=
  List.pairwise_cons.2
    ⟨fun _ hmem => (mem_startsAfter hmem).1, pairwise_startsAfter 0 source.toList⟩

/-! ## The line of an offset -/

/-- Where an ascending list passes an offset. -/
theorem takeWhile_le_append {offset : Nat} {below above : List Nat}
    (hbelow : ∀ start ∈ below, start ≤ offset) (habove : ∀ start ∈ above, offset < start) :
    (below ++ above).takeWhile (· ≤ offset) = below := by
  rw [List.takeWhile_append_of_pos (by simpa using hbelow)]
  cases above with
  | nil => simp
  | cons start above =>
    have hlt := habove start List.mem_cons_self
    rw [List.takeWhile_cons_of_neg (by simpa using hlt), List.append_nil]

theorem length_takeWhile_startsAfter (base offset : Nat) (text : List Char) :
    ((startsAfter base text).takeWhile (· ≤ base + offset)).length =
      ((bytes text).take offset).count 10 := by
  induction text generalizing base offset with
  | nil => simp [startsAfter, bytes]
  | cons c cs ih =>
    have hbytes : bytes (c :: cs) = String.utf8EncodeChar c ++ bytes cs := rfl
    have hsize := String.length_utf8EncodeChar c
    by_cases hlt : offset < c.utf8Size
    · -- The offset stands at `c` or inside of it, and no line begins before `c` ends.
      have habove : ∀ start ∈ startsAfter base (c :: cs), base + offset < start := by
        intro start hmem
        simp only [startsAfter] at hmem
        split at hmem
        · rcases List.mem_cons.1 hmem with rfl | hmem
          · omega
          · have hstart := (mem_startsAfter hmem).1
            omega
        · have hstart := (mem_startsAfter hmem).1
          omega
      have hnone : (startsAfter base (c :: cs)).takeWhile (· ≤ base + offset) = [] :=
        takeWhile_le_append (List.forall_mem_nil _) habove
      rw [hnone, hbytes, List.take_append_of_le_length (by omega), count_take_utf8EncodeChar hlt]
      rfl
    · have hrest := ih (base + c.utf8Size) (offset - c.utf8Size)
      rw [show base + c.utf8Size + (offset - c.utf8Size) = base + offset by omega] at hrest
      rw [hbytes, List.take_append, List.take_of_length_le (by omega), hsize, List.count_append,
        count_utf8EncodeChar, ← hrest]
      simp only [startsAfter]
      by_cases hc : c = '\n'
      · rw [if_pos hc, if_pos hc, List.takeWhile_cons_of_pos (by simp; omega), List.length_cons,
          Nat.add_comm]
      · rw [if_neg hc, if_neg hc, Nat.zero_add]

/-- The line of an offset is one more than the line feeds in front of it. -/
theorem line_position_eq (source : String) (offset : Nat) :
    ((ofSource source).position offset).line = 1 + lineFeedsBefore source offset := by
  have hcount := length_takeWhile_startsAfter 0 offset source.toList
  rw [Nat.zero_add] at hcount
  rw [lineFeedsBefore, toList_data_toUTF8, ← hcount]
  simp only [position, ofSource]
  rw [List.takeWhile_cons_of_pos (by simp), List.length_cons, Nat.add_comm]

theorem line_position {source : String} {before rest : List Char}
    (h : source.toList = before ++ rest) :
    ((ofSource source).position (byteLength before)).line = 1 + before.count '\n' := by
  rw [line_position_eq, lineFeedsBefore_eq h]

/-! ## Searches -/

/-- What a search of an ascending list may answer: where the offset stands, or where it would have
    to be put in. -/
inductive Search (starts : List Nat) (offset : Nat) : Except Nat Nat → Prop where
  | hit {i : Nat} (h : starts[i]? = some offset) : Search starts offset (.ok i)
  | miss {i : Nat} (hi : i ≤ starts.length) (hbelow : ∀ start ∈ starts.take i, start < offset)
    (habove : ∀ start ∈ starts.drop i, offset < start) : Search starts offset (.error i)

/-- The line that the answer of a search names: a line that begins here, or the one in front of a
    line that would begin here. -/
def searchLine : Except Nat Nat → Nat
  | .ok i => i + 1
  | .error i => (i - 1) + 1

/-- Every search comes to the line of the offset. -/
theorem searchLine_eq {source : String} {offset : Nat} {answer : Except Nat Nat}
    (h : Search (ofSource source).starts offset answer) :
    searchLine answer = ((ofSource source).position offset).line := by
  have hordered := pairwise_starts source
  cases h with
  | @hit i h =>
    obtain ⟨hi, hget⟩ := List.getElem?_eq_some_iff.1 h
    have hsplit : (ofSource source).starts =
        (ofSource source).starts.take i ++ offset :: (ofSource source).starts.drop (i + 1) := by
      rw [← hget, List.getElem_cons_drop, List.take_append_drop]
    rw [hsplit] at hordered
    obtain ⟨-, habove, hbelow⟩ := List.pairwise_append.1 hordered
    have hle : ∀ start ∈ (ofSource source).starts.take i ++ [offset], start ≤ offset := by
      intro start hmem
      obtain hmem | hmem := List.mem_append.1 hmem
      · exact Nat.le_of_lt (hbelow start hmem offset List.mem_cons_self)
      · exact Nat.le_of_eq (List.mem_singleton.1 hmem)
    have hline := takeWhile_le_append hle fun _ hmem => List.rel_of_pairwise_cons habove hmem
    rw [List.append_assoc, List.singleton_append, ← hsplit] at hline
    simp only [searchLine, position, hline, List.length_append, List.length_take,
      List.length_singleton]
    omega
  | @miss i hi hbelow habove =>
    have hline := takeWhile_le_append (fun start hmem => Nat.le_of_lt (hbelow start hmem)) habove
    rw [List.take_append_drop] at hline
    -- The first line begins at zero, so no offset belongs in front of it.
    have hpos : 0 < i := by
      rcases Nat.eq_zero_or_pos i with rfl | hpos
      · exact absurd (habove 0 List.mem_cons_self) (Nat.not_lt_zero _)
      · exact hpos
    simp only [searchLine, position, hline, List.length_take]
    omega

end LineTable

end ArithVM
