import ArithVM.Proofs.Decimal.Numeral
import ArithVM.Proofs.Listing.Rows
import ArithVM.Proofs.Token.Pattern

/-!
# Reading — listings read back

A listing is read row by row and a row word by word: the offset, the mark of the line, and the words
of the entry.  Names and operands give every byte of the code back, malformed bytes too, so nothing
but the same code has the same listing.
-/

namespace ArithVM

open Text

namespace Text

/-- The words of a text; blanks separate them. -/
def words (text : List Char) : List (List Char) :=
  (text.splitOn ' ').filter (· ≠ [])

theorem words_append_cons (front rest : List Char) :
    words (front ++ ' ' :: rest) = words front ++ words rest := by
  rw [words, List.splitOn_append_cons_self, List.filter_append]
  rfl

theorem words_append_blank {text front : List Char} (h : text = front ++ [' '])
    (rest : List Char) : words (text ++ rest) = words front ++ words rest := by
  rw [h, List.append_assoc]
  exact words_append_cons front rest

theorem words_of_notMem {word : List Char} (hne : word ≠ []) (h : ' ' ∉ word) :
    words word = [word] := by
  rw [words, List.splitOn_eq_singleton h, List.filter_singleton]
  simp [hne]

theorem words_of_isDigits {digits : List Char} (h : IsDigits digits) : words digits = [digits] :=
  words_of_notMem h.1 (h.notMem (by decide))

theorem words_blanks_append (count : Nat) (rest : List Char) :
    words (List.replicate count ' ' ++ rest) = words rest := by
  induction count with
  | zero => rfl
  | succ count ih =>
    rw [List.replicate_succ, List.cons_append]
    exact (words_append_cons [] _).trans ih

theorem words_append_blanks (front : List Char) (count : Nat) :
    words (front ++ List.replicate count ' ') = words front := by
  cases count with
  | zero => rw [List.replicate_zero, List.append_nil]
  | succ count =>
    have hblanks := words_blanks_append count []
    rw [List.append_nil] at hblanks
    rw [List.replicate_succ, words_append_cons, hblanks]
    exact List.append_nil _

theorem words_padLeft (width : Nat) (text : String) :
    words (padLeft width ' ' text).toList = words text.toList := by
  rw [padLeft, fill, String.toList_append, String.toList_ofList, words_blanks_append]

theorem words_padRight (width : Nat) (text : String) :
    words (padRight width text).toList = words text.toList := by
  rw [padRight, fill, String.toList_append, String.toList_ofList, words_append_blanks]

/-- Texts next to each other with a blank between them. -/
theorem words_append (a b : String) :
    words (a ++ " " ++ b).toList = words a.toList ++ words b.toList := by
  rw [String.toList_append, words_append_blank (String.toList_append ..)]

/-- The lines of a text in which every line is ended by a line feed. -/
theorem splitOn_flatMap_feed {lines : List (List Char)} (h : ∀ line ∈ lines, '\n' ∉ line) :
    (lines.flatMap (· ++ ['\n'])).splitOn '\n' = lines ++ [[]] := by
  induction lines with
  | nil => exact List.splitOn_nil _
  | cons line lines ih =>
    obtain ⟨hline, hlines⟩ := List.forall_mem_cons.1 h
    rw [List.flatMap_cons, List.append_assoc, List.singleton_append,
      List.splitOn_append_cons_self_of_not_mem hline, ih hlines, List.cons_append]

end Text

namespace Opcode

/-- The opcode with this name. -/
def named? (name : List Char) : Option Opcode :=
  [.constant, .operator .add, .operator .subtract, .operator .multiply, .operator .divide, .negate,
    .ret].find? fun op => op.mnemonic.toList = name

theorem named?_mnemonic (op : Opcode) : named? op.mnemonic.toList = some op := by
  rcases op with _ | op | _ | _
  · decide
  · cases op <;> decide
  · decide
  · decide

theorem words_mnemonic (op : Opcode) : words op.mnemonic.toList = [op.mnemonic.toList] := by
  rcases op with _ | op | _ | _
  · decide
  · cases op <;> decide
  · decide
  · decide

end Opcode

/-! ## Reading -/

namespace Listing

/-- The rows under the heading with this name. -/
def rows (name listing : String) : List (List Char) :=
  ((listing.toList.drop ("== " ++ name ++ " ==\n").length).splitOn '\n').dropLast

/-- The word of a row for the line. -/
def mark (row : List Char) : List Char :=
  (words row)[1]?.getD []

/-- The words of a row for the entry. -/
def entryWords (row : List Char) : List (List Char) :=
  (words row).drop 2

/-- The number that a word stands for, if it is one. -/
def number? (word : List Char) : Option Nat :=
  if word.all isDigit then some (Value.digitsValue word) else none

/-- The bytes that the words of an entry stand for: the opcode with the operand, if there is one, or
    a byte that is no opcode. -/
def bytes : List (List Char) → List UInt8
  | [] => []
  | name :: operands =>
    match Opcode.named? name with
    | some op => op.byte :: ((operands[0]?.bind number?).map UInt8.ofNat).toList
    | none => ((operands[1]?.bind number?).map UInt8.ofNat).toList

/-- The code that is listed under the heading with this name. -/
def code (name listing : String) : List UInt8 :=
  (rows name listing).flatMap fun row => bytes (entryWords row)

theorem bytes_of_mnemonic (op : Opcode) (operands : List (List Char)) :
    bytes (op.mnemonic.toList :: operands) =
      op.byte :: ((operands[0]?.bind number?).map UInt8.ofNat).toList := by
  simp only [bytes, Opcode.named?_mnemonic]

theorem number?_toString (n : Nat) : number? (toString n).toList = some n := by
  have hdigits := Decimal.isDigits_toString n
  rw [number?, if_pos (List.all_eq_true.2 hdigits.2), Decimal.digitsValue_toString]

end Listing

/-! ## Rows -/

namespace Chunk

variable {c : Chunk} {offset : Nat}

/-- The word of a row for the line: a bar, a question mark, or the number of the line. -/
def lineMark (c : Chunk) (offset : Nat) : List Char :=
  match c.line? offset with
  | none => ['?']
  | some line =>
    if 0 < offset ∧ c.line? (offset - 1) = some line then ['|'] else (toString line).toList

theorem words_lineColumn_append (c : Chunk) (offset : Nat) (rest : List Char) :
    words ((c.lineColumn offset).toList ++ rest) = c.lineMark offset :: words rest := by
  have hunknown : "   ? ".toList = [' ', ' ', ' ', '?'] ++ [' '] := by decide
  have hbar : "   | ".toList = [' ', ' ', ' ', '|'] ++ [' '] := by decide
  unfold lineColumn lineMark
  cases c.line? offset with
  | none => exact words_append_blank hunknown rest
  | some line =>
    by_cases hsame : 0 < offset ∧ c.line? (offset - 1) = some line
    · simp only [if_pos hsame]
      exact words_append_blank hbar rest
    · simp only [if_neg hsame]
      rw [words_append_blank (String.toList_append ..), words_padLeft,
        words_of_isDigits (Decimal.isDigits_toString line)]
      rfl

theorem words_rowText (c : Chunk) (offset : Nat) :
    words (c.rowText offset).toList = (padLeft 4 '0' (toString offset)).toList ::
      c.lineMark offset :: words (c.entryText (c.decode offset)).toList := by
  rw [rowText, String.toList_append, String.toList_append, List.append_assoc,
    words_append_blank (String.toList_append ..), words_of_isDigits (Decimal.isDigits_padLeft ..),
    words_lineColumn_append]
  rfl

theorem mark_rowText (c : Chunk) (offset : Nat) :
    Listing.mark (c.rowText offset).toList = c.lineMark offset := by
  rw [Listing.mark, words_rowText]
  rfl

/-- The words of an entry tell its bytes. -/
theorem bytes_words_entryText (c : Chunk) (entry : Except DecodeError Instruction) :
    Listing.bytes (words (c.entryText entry).toList) = entryBytes entry := by
  -- The first word settles how the rest is read: `Unknown` is the name of no opcode, and what stands
  -- for a missing operand is no number.
  unfold entryText
  split
  next index =>
    rw [words_append, words_append, words_padRight, words_padLeft, Opcode.words_mnemonic,
      words_of_isDigits (Decimal.isDigits_toString _), List.append_assoc, List.singleton_append,
      Listing.bytes_of_mnemonic, List.singleton_append, List.getElem?_cons_zero, Option.bind_some,
      Listing.number?_toString, Option.map_some, UInt8.ofNat_toNat]
    rfl
  next i hi =>
    rw [Opcode.words_mnemonic, Listing.bytes_of_mnemonic]
    cases i with
    | constant index => exact absurd rfl (hi index)
    | operator op => rfl
    | negate => rfl
    | ret => rfl
  next byte _ =>
    have hname : "Unknown opcode " = "Unknown opcode" ++ " " := by decide
    have hwords : words "Unknown opcode".toList = ["Unknown".toList, "opcode".toList] := by decide
    have hnamed : Opcode.named? "Unknown".toList = none := by decide
    rw [hname, words_append, hwords, words_of_isDigits (Decimal.isDigits_toString _)]
    simp only [List.cons_append, List.nil_append, Listing.bytes, hnamed, List.getElem?_cons_succ,
      List.getElem?_cons_zero, Option.bind_some, Listing.number?_toString, Option.map_some,
      UInt8.ofNat_toNat, Option.toList_some, entryBytes]
  next op _ =>
    have hmissing : " <missing operand>" = " " ++ "<missing operand>" := by decide
    have hwords : words "<missing operand>".toList = ["<missing".toList, "operand>".toList] := by
      decide
    have hnumber : Listing.number? "<missing".toList = none := by decide
    rw [hmissing, ← String.append_assoc, words_append, words_padRight, Opcode.words_mnemonic,
      hwords, List.singleton_append, Listing.bytes_of_mnemonic, List.getElem?_cons_zero,
      Option.bind_some, hnumber]
    rfl
  next => rfl

/-! ## Listings -/

theorem map_rowsFrom_walk (c : Chunk) :
    (c.rowsFrom 0).map (fun row => row.text ++ "\n") =
      c.walk.map fun entry => c.rowText entry.1 ++ "\n" := by
  rw [map_rowsFrom]
  apply List.map_congr_left
  intro entry hmem
  rw [disassembleAt, row?_eq_some (mem_walkFrom hmem).1]

end Chunk

namespace Listing

/-- The rows of a listing are those of the walk. -/
theorem rows_listing (c : Chunk) (name : String) :
    rows name (c.listing name) = c.walk.map fun entry => (c.rowText entry.1).toList := by
  have hfeed : ∀ row ∈ c.walk.map fun entry => (c.rowText entry.1).toList, '\n' ∉ row := by
    intro row hmem
    obtain ⟨entry, -, rfl⟩ := List.mem_map.1 hmem
    obtain ⟨-, -, honeLine⟩ := c.isRow_rowText entry.1
    exact honeLine
  have hrows : (String.join (c.walk.map fun entry => c.rowText entry.1 ++ "\n")).toList =
      (c.walk.map fun entry => (c.rowText entry.1).toList).flatMap (· ++ ['\n']) := by
    simp only [String.toList_join, List.flatMap_map, String.toList_append]
    rfl
  rw [rows, Chunk.listing, Chunk.map_rowsFrom_walk, String.toList_append, hrows, ← String.length_toList,
    List.drop_left, splitOn_flatMap_feed hfeed, List.dropLast_concat]

/-- **A listing can be read back**: it tells the code byte by byte. -/
theorem code_listing (c : Chunk) (name : String) : code name (c.listing name) = c.code.toList := by
  have hbytes (entry : Nat × Except DecodeError Instruction) (h : entry ∈ c.walk) :
      bytes (entryWords (c.rowText entry.1).toList) = Chunk.entryBytes entry.2 := by
    rw [entryWords, Chunk.words_rowText, (Chunk.mem_walkFrom h).2]
    exact Chunk.bytes_words_entryText ..
  rw [code, rows_listing, List.flatMap_map]
  calc
    c.walk.flatMap (fun entry => bytes (entryWords (c.rowText entry.1).toList))
    _ = c.walk.flatMap fun entry => Chunk.entryBytes entry.2 := List.flatMap_congr hbytes
    _ = c.code.toList := Chunk.flatMap_walkFrom c 0

end Listing

/-- **A listing loses no code.**  Chunks that are listed alike under one name have the same code,
    whatever their lines and constants are, and whether their code is well-formed or not. -/
theorem Chunk.code_eq_of_listing_eq {c d : Chunk} {name : String}
    (h : c.listing name = d.listing name) : c.code = d.code := by
  have hcode := Listing.code_listing c name
  rw [h, Listing.code_listing] at hcode
  exact (Array.toList_inj.1 hcode).symm

/-- A dangling index, an unknown byte and a missing operand, in chunks that differ where no row
    shows it: in the lines of the operands and in the constants. -/
theorem Chunk.code_eq_of_malformed_listing :
    ∃ c d : Chunk, c = ⟨#[0, 0, 0, 9, 200, 0], #[3, 9, 4, 9, 5, 5], ⟨#[1]⟩⟩ ∧
      d = ⟨#[0, 0, 0, 9, 200, 0], #[3, 8, 4, 8, 5, 5], ⟨#[1.0000001, 2]⟩⟩ ∧
      c.listing "code" = d.listing "code" ∧ c.code = d.code := by
  have h : listing ⟨#[0, 0, 0, 9, 200, 0], #[3, 9, 4, 9, 5, 5], ⟨#[1]⟩⟩ "code" =
      listing ⟨#[0, 0, 0, 9, 200, 0], #[3, 8, 4, 8, 5, 5], ⟨#[1.0000001, 2]⟩⟩ "code" := by
    decide +kernel
  exact ⟨_, _, rfl, rfl, h, code_eq_of_listing_eq h⟩

end ArithVM
