import ArithVM.Json
import ArithVM.Proofs.Decimal.Numeral

/-!
# Reading JSON

A reader of JSON texts goes over the characters once, with a stack of the arrays and objects that
are open.  It knows every escape, surrogate pairs among them, and the blanks that JSON allows between
its tokens; it refuses raw control characters in strings, zeros in front of numbers and commas with
nothing behind them.  The literals and numbers with a sign, a fraction or an exponent are not in the
data, so it refuses these, too.  What it reads from the text of a value is that value.
-/

namespace ArithVM.Json

/-! ## Strings -/

/-- The value of a hexadecimal digit of either case. -/
def hexValue? (c : Char) : Option Nat :=
  if '0' ≤ c ∧ c ≤ '9' then some (c.toNat - '0'.toNat)
  else if 'a' ≤ c ∧ c ≤ 'f' then some (c.toNat - 'a'.toNat + 10)
  else if 'A' ≤ c ∧ c ≤ 'F' then some (c.toNat - 'A'.toNat + 10)
  else none

/-- The character that two characters stand for, a backslash and this one. -/
def unescape? : Char → Option Char
  | '"' => some '"'
  | '\\' => some '\\'
  | '/' => some '/'
  | 'b' => some '\x08'
  | 'f' => some '\x0c'
  | 'n' => some '\n'
  | 'r' => some '\r'
  | 't' => some '\t'
  | _ => none

/-- Where in a string the reader is. -/
inductive Inside where
  | plain
  /-- Behind a backslash. -/
  | escape
  /-- In a code unit of four hexadecimal digits, of which `count` have been read. -/
  | unit (lead? : Option Nat) (value count : Nat)
  /-- Behind the first half of a surrogate pair. -/
  | lead (high : Nat)
  /-- Behind the first half of a surrogate pair and a backslash. -/
  | leadEscape (high : Nat)

/-- Goes on behind a code unit. -/
def takeUnit (text : List Char) : Option Nat → Nat → Option (List Char × Inside)
  | none, unit =>
    if 0xd800 ≤ unit ∧ unit < 0xdc00 then some (text, .lead unit)
    else if 0xdc00 ≤ unit ∧ unit < 0xe000 then none
    else some (text ++ [Char.ofNat unit], .plain)
  | some high, unit =>
    if 0xdc00 ≤ unit ∧ unit < 0xe000 then
      some (text ++ [Char.ofNat (0x10000 + 0x400 * (high - 0xd800) + (unit - 0xdc00))], .plain)
    else none

/-- Takes a character of a string that does not close it. -/
def Inside.next (text : List Char) : Inside → Char → Option (List Char × Inside)
  | .plain, c =>
    if c = '\\' then some (text, .escape)
    else if c.toNat < 0x20 then none
    else some (text ++ [c], .plain)
  | .escape, c =>
    if c = 'u' then some (text, .unit none 0 0)
    else (unescape? c).map fun d => (text ++ [d], .plain)
  | .unit lead? value count, c =>
    (hexValue? c).bind fun digit =>
      if count < 3 then some (text, .unit lead? (16 * value + digit) (count + 1))
      else takeUnit text lead? (16 * value + digit)
  | .lead high, c => if c = '\\' then some (text, .leadEscape high) else none
  | .leadEscape high, c => if c = 'u' then some (text, .unit (some high) 0 0) else none

/-! ## The reader -/

/-- An array or object that is open. -/
inductive Frame where
  /-- An array, behind these items. -/
  | array (items : List Json)
  /-- An object, behind these members and before a name. -/
  | object (members : List (String × Json))
  /-- An object, behind these members and a name. -/
  | member (members : List (String × Json)) (name : String)

/-- What the reader is about. -/
inductive Mode where
  /-- A value has to follow, or the end of an array without items. -/
  | value
  /-- A name has to follow, or the end of an object without members. -/
  | name
  /-- A colon has to follow. -/
  | colon
  /-- In a string, which is a name or a value. -/
  | string (isName : Bool) (text : List Char) (inside : Inside)
  /-- Behind the first digits of a number. -/
  | number (n : Nat)
  /-- Behind a value. -/
  | complete (json : Json)

structure State where
  /-- What is open, the innermost first. -/
  frames : List Frame
  mode : Mode

namespace State

def isSpace (c : Char) : Bool :=
  c = ' ' || c = '\t' || c = '\n' || c = '\r'

/-- Where a value has to follow. -/
def begin : List Frame → Char → Option State
  | frames, '"' => some ⟨frames, .string false [] .plain⟩
  | frames, '[' => some ⟨.array [] :: frames, .value⟩
  | frames, '\x7b' => some ⟨.object [] :: frames, .name⟩
  | .array [] :: outer, ']' => some ⟨outer, .complete (.array [])⟩
  | frames, c =>
    if isDigit c then some ⟨frames, .number (c.toNat - '0'.toNat)⟩
    else if isSpace c then some ⟨frames, .value⟩
    else none

/-- Where a name has to follow. -/
def beginName : List Frame → Char → Option State
  | frames, '"' => some ⟨frames, .string true [] .plain⟩
  | .object [] :: outer, '\x7d' => some ⟨outer, .complete (.object [])⟩
  | frames, c => if isSpace c then some ⟨frames, .name⟩ else none

/-- At the quote that closes a string. -/
def closeString (isName : Bool) (text : List Char) (frames : List Frame) : Option State :=
  match isName, frames with
  | false, frames => some ⟨frames, .complete (.string (.ofList text))⟩
  | true, .object members :: outer => some ⟨.member members (.ofList text) :: outer, .colon⟩
  | true, _ => none

/-- Behind a value. -/
def after (json : Json) : List Frame → Char → Option State
  | .array items :: outer, ',' => some ⟨.array (items ++ [json]) :: outer, .value⟩
  | .array items :: outer, ']' => some ⟨outer, .complete (.array (items ++ [json]))⟩
  | .member members name :: outer, ',' =>
    some ⟨.object (members ++ [(name, json)]) :: outer, .name⟩
  | .member members name :: outer, '\x7d' =>
    some ⟨outer, .complete (.object (members ++ [(name, json)]))⟩
  | frames, c => if isSpace c then some ⟨frames, .complete json⟩ else none

/-- Takes one character. -/
def step (s : State) (c : Char) : Option State :=
  match s.mode with
  | .value => begin s.frames c
  | .name => beginName s.frames c
  | .colon =>
    if c = ':' then some ⟨s.frames, .value⟩
    else if isSpace c then some s
    else none
  | .string isName text .plain =>
    if c = '"' then closeString isName text s.frames
    else (Inside.plain.next text c).map fun next => ⟨s.frames, .string isName next.1 next.2⟩
  | .string isName text inside =>
    (inside.next text c).map fun next => ⟨s.frames, .string isName next.1 next.2⟩
  | .number n =>
    if isDigit c then
      -- A zero in front of other digits is refused.
      if n = 0 then none else some ⟨s.frames, .number (10 * n + (c.toNat - '0'.toNat))⟩
    else after (.number n) s.frames c
  | .complete json => after json s.frames c

/-- The value that has been read if the text ends here. -/
def result? (s : State) : Option Json :=
  match s.frames, s.mode with
  | [], .number n => some (.number n)
  | [], .complete json => some json
  | _, _ => none

def run (s : State) (text : List Char) : Option State :=
  text.foldlM step s

end State

/-- Reads a JSON text. -/
def read? (text : String) : Option Json :=
  (State.run ⟨[], .value⟩ text.toList).bind State.result?

/-! ## Texts -/

/-- What holds of an array if it holds of its items, and so on, holds of every value. -/
theorem induction {motive : Json → Prop} (string : ∀ text, motive (.string text))
    (number : ∀ n, motive (.number n))
    (array : ∀ items, (∀ item ∈ items, motive item) → motive (.array items))
    (object : ∀ members : List (String × Json), (∀ member ∈ members, motive member.2) →
      motive (.object members)) (json : Json) : motive json := by
  refine render.induct motive (fun members => ∀ member ∈ members, motive member.2)
    (fun items => ∀ item ∈ items, motive item) string number array object ?_ ?_ ?_ ?_ json
  · exact List.forall_mem_nil _
  · intro item items hitem hitems
    exact List.forall_mem_cons.2 ⟨hitem, hitems⟩
  · exact List.forall_mem_nil _
  · intro key value members hvalue hmembers
    exact List.forall_mem_cons.2 ⟨hvalue, hmembers⟩

/-- The text of a value, as its characters. -/
def chars (json : Json) : List Char :=
  json.render.toList

def quoteChars (text : String) : List Char :=
  '"' :: (text.toList.flatMap escape ++ ['"'])

/-- The text of a member of an object. -/
def memberChars (member : String × Json) : List Char :=
  quoteChars member.1 ++ ':' :: member.2.chars

theorem toList_quote (text : String) : (quote text).toList = quoteChars text := by
  simp [quote, quoteChars]

theorem chars_string (text : String) : (string text).chars = quoteChars text := by
  rw [chars, render, toList_quote]

theorem chars_number (n : Nat) : (number n).chars = (toString n).toList := by
  rw [chars, render]

theorem map_toList_renderItems (items : List Json) :
    (renderItems items).map String.toList = items.map chars := by
  induction items with
  | nil => rfl
  | cons item items ih => rw [renderItems, List.map_cons, List.map_cons, ih, chars]

theorem map_toList_renderMembers (members : List (String × Json)) :
    (renderMembers members).map String.toList = members.map memberChars := by
  induction members with
  | nil => rfl
  | cons member members ih =>
    obtain ⟨key, value⟩ := member
    rw [renderMembers, List.map_cons, List.map_cons, ih, memberChars, String.toList_append,
      String.toList_append, toList_quote, List.append_assoc]
    rfl

theorem chars_array (items : List Json) :
    (array items).chars = '[' :: ([','].intercalate (items.map chars) ++ [']']) := by
  rw [chars, render, String.toList_append, String.toList_append, String.toList_intercalate,
    map_toList_renderItems]
  rfl

theorem chars_object (members : List (String × Json)) :
    (object members).chars =
      '\x7b' :: ([','].intercalate (members.map memberChars) ++ ['\x7d']) := by
  rw [chars, render, String.toList_append, String.toList_append, String.toList_intercalate,
    map_toList_renderMembers]
  rfl

/-! ## Reading a text back -/

theorem hexValue?_hexDigit : ∀ n < 16, hexValue? (hexDigit n) = some n := by
  decide

namespace State

variable {s s' : State} {frames : List Frame}

theorem run_cons {c : Char} (h : step s c = some s') (text : List Char) :
    run s (c :: text) = run s' text := by
  rw [run, List.foldlM_cons, h]
  rfl

theorem run_append {text : List Char} (h : run s text = some s') (more : List Char) :
    run s (text ++ more) = run s' more := by
  rw [run] at h
  rw [run, List.foldlM_append, h]
  rfl

/-! ### Strings -/

theorem run_control (isName : Bool) (text : List Char) {c : Char} (hc : c.toNat < 0x20) :
    run ⟨frames, .string isName text .plain⟩
        ['\\', 'u', '0', '0', hexDigit (c.toNat / 16), hexDigit (c.toNat % 16)] =
      some ⟨frames, .string isName (text ++ [c]) .plain⟩ := by
  have hzeros : run ⟨frames, .string isName text .plain⟩ ['\\', 'u', '0', '0'] =
      some ⟨frames, .string isName text (.unit none 0 2)⟩ := rfl
  have hhigh : step ⟨frames, .string isName text (.unit none 0 2)⟩ (hexDigit (c.toNat / 16)) =
      some ⟨frames, .string isName text (.unit none (c.toNat / 16) 3)⟩ := by
    simp [step, Inside.next, hexValue?_hexDigit (c.toNat / 16) (by omega)]
  have hunit : 16 * (c.toNat / 16) + c.toNat % 16 = c.toNat := Nat.div_add_mod ..
  -- The code unit is below the surrogates, so it is the character itself.
  have hlow : step ⟨frames, .string isName text (.unit none (c.toNat / 16) 3)⟩
      (hexDigit (c.toNat % 16)) = some ⟨frames, .string isName (text ++ [c]) .plain⟩ := by
    simp only [step, Inside.next, hexValue?_hexDigit (c.toNat % 16) (by omega), Option.bind_some,
      hunit, takeUnit]
    rw [if_neg (by omega), if_neg (by omega), if_neg (by omega), Char.ofNat_toNat]
    rfl
  have happend := run_append hzeros [hexDigit (c.toNat / 16), hexDigit (c.toNat % 16)]
  rw [run_cons hhigh, run_cons hlow] at happend
  exact happend

theorem run_escape (isName : Bool) (text : List Char) (c : Char) :
    run ⟨frames, .string isName text .plain⟩ (escape c) =
      some ⟨frames, .string isName (text ++ [c]) .plain⟩ := by
  unfold escape
  split_ifs with hquote hslash hfeed hreturn htab hback hpage hcontrol
  · rw [hquote]; rfl
  · rw [hslash]; rfl
  · rw [hfeed]; rfl
  · rw [hreturn]; rfl
  · rw [htab]; rfl
  · rw [hback]; rfl
  · rw [hpage]; rfl
  · exact run_control isName text hcontrol
  · have hstep : step ⟨frames, .string isName text .plain⟩ c =
        some ⟨frames, .string isName (text ++ [c]) .plain⟩ := by
      simp [step, Inside.next, hquote, hslash, hcontrol]
    rw [run_cons hstep]
    rfl

theorem run_flatMap_escape (isName : Bool) (front text : List Char) :
    run ⟨frames, .string isName front .plain⟩ (text.flatMap escape) =
      some ⟨frames, .string isName (front ++ text) .plain⟩ := by
  -- What has been read of the string is taken along.
  induction text generalizing front with
  | nil =>
    rw [List.append_nil]
    rfl
  | cons c text ih =>
    rw [List.flatMap_cons, run_append (run_escape isName front c), ih, List.append_assoc]
    rfl

/-- Behind its first quote a string is read up to its last one. -/
theorem run_quoted (isName : Bool) (text : String) :
    run ⟨frames, .string isName [] .plain⟩ (text.toList.flatMap escape ++ ['"']) =
      closeString isName text.toList frames := by
  rw [run_append (run_flatMap_escape isName [] text.toList), List.nil_append]
  show (step _ '"').bind some = _
  rw [Option.bind_fun_some]
  rfl

theorem run_string (text : String) :
    run ⟨frames, .value⟩ (quoteChars text) = some ⟨frames, .complete (.string text)⟩ := by
  have hquote : step ⟨frames, .value⟩ '"' = some ⟨frames, .string false [] .plain⟩ := rfl
  rw [quoteChars, run_cons hquote, run_quoted, closeString, String.ofList_toList]

theorem run_name (members : List (String × Json)) (outer : List Frame) (name : String) :
    run ⟨.object members :: outer, .name⟩ (quoteChars name ++ [':']) =
      some ⟨.member members name :: outer, .value⟩ := by
  have hquote : step ⟨.object members :: outer, .name⟩ '"' =
      some ⟨.object members :: outer, .string true [] .plain⟩ := rfl
  have hname : run ⟨.object members :: outer, .string true [] .plain⟩ _ = _ := run_quoted true name
  rw [closeString, String.ofList_toList] at hname
  rw [quoteChars, List.cons_append, run_cons hquote, run_append hname]
  rfl

/-! ### Numbers -/

theorem run_digits {n : Nat} (hn : n ≠ 0) {digits : List Char} (h : ∀ c ∈ digits, isDigit c) :
    run ⟨frames, .number n⟩ digits = some ⟨frames, .number (Nat.ofDigitChars 10 digits n)⟩ := by
  induction digits generalizing n with
  | nil => rfl
  | cons c digits ih =>
    obtain ⟨hc, hdigits⟩ := List.forall_mem_cons.1 h
    have hstep : step ⟨frames, .number n⟩ c =
        some ⟨frames, .number (10 * n + (c.toNat - '0'.toNat))⟩ := by
      simp [step, hc, hn]
    rw [run_cons hstep, ih (by omega) hdigits]
    rfl

theorem step_of_isDigit {c : Char} (hc : isDigit c) :
    step ⟨frames, .value⟩ c = some ⟨frames, .number (c.toNat - '0'.toNat)⟩ := by
  show begin frames c = _
  unfold begin
  split
  · contradiction
  · contradiction
  · contradiction
  · contradiction
  · rw [if_pos hc]

theorem run_number (n : Nat) :
    run ⟨frames, .value⟩ (toString n).toList = some ⟨frames, .number n⟩ := by
  obtain ⟨hne, hdigits⟩ := Decimal.isDigits_toString n
  have hvalue := Decimal.digitsValue_toString n
  have hzero := Decimal.eq_zero_of_head?_toString n
  by_cases hn : n = 0
  · rw [hn]
    rfl
  · obtain ⟨c, digits, hcons⟩ := List.exists_cons_of_ne_nil hne
    rw [hcons] at hdigits hvalue hzero ⊢
    obtain ⟨hc, hdigits⟩ := List.forall_mem_cons.1 hdigits
    -- The first digit is not zero, so others may follow.
    have hfirst : c.toNat - '0'.toNat ≠ 0 := by
      intro hdigit
      have hbounds : '0' ≤ c ∧ c ≤ '9' := by simpa [isDigit] using hc
      have heq : c.toNat = '0'.toNat :=
        Nat.le_antisymm (Nat.sub_eq_zero_iff_le.1 hdigit) hbounds.1
      rw [← Char.ofNat_toNat c, heq, Char.ofNat_toNat] at hzero
      exact hn (hzero rfl)
    rw [run_cons (step_of_isDigit hc), run_digits hfirst hdigits, ← hvalue]
    show _ = some (⟨frames, .number (Nat.ofDigitChars 10 digits (10 * 0 + _))⟩ : State)
    rw [Nat.mul_zero, Nat.zero_add]

/-! ### Values -/

/-- The value stands behind what is open; a number need not be complete. -/
inductive Holds (frames : List Frame) : Json → State → Prop where
  | number (n : Nat) : Holds frames (.number n) ⟨frames, .number n⟩
  | complete (json : Json) : Holds frames json ⟨frames, .complete json⟩

theorem Holds.step_eq {json : Json} (h : Holds frames json s) {c : Char} (hc : isDigit c = false) :
    step s c = after json frames c := by
  cases h with
  | number => simp [step, hc]
  | complete => rfl

theorem Holds.result?_eq {json : Json} (h : Holds [] json s) : s.result? = some json := by
  cases h <;> rfl

/-- Where a value has to follow, the text is read as this value. -/
def Reads (json : Json) : Prop :=
  ∀ frames, ∃ s, run ⟨frames, .value⟩ json.chars = some s ∧ Holds frames json s

/-- Elements with commas between them and a last character behind them are read one by one. -/
theorem run_separated {α : Type} {text : α → List Char} {last : Char}
    (start finish : List α → State) {elements : List α} (hne : elements ≠ [])
    (h : ∀ x ∈ elements, ∀ done, ∃ s, run (start done) (text x) = some s ∧
      step s ',' = some (start (done ++ [x])) ∧ step s last = some (finish (done ++ [x])))
    (done : List α) :
    run (start done) ([','].intercalate (elements.map text) ++ [last]) =
      some (finish (done ++ elements)) := by
  -- Each element moves from those ahead to those that are done.
  induction elements generalizing done with
  | nil => contradiction
  | cons x rest ih =>
    obtain ⟨hx, hrest⟩ := List.forall_mem_cons.1 h
    obtain ⟨s, hrun, hcomma, hlast⟩ := hx done
    cases rest with
    | nil =>
      rw [List.map_singleton, List.intercalate_singleton, run_append hrun, run_cons hlast]
      rfl
    | cons y rest =>
      have hlater := ih (List.cons_ne_nil _ _) hrest (done ++ [x])
      rw [List.append_assoc] at hlater
      rw [List.map_cons, List.map_cons, List.intercalate_cons_cons, List.append_assoc,
        List.append_assoc, run_append hrun, List.singleton_append, run_cons hcomma]
      exact hlater

theorem reads_array {items : List Json} (h : ∀ item ∈ items, Reads item) :
    Reads (.array items) := by
  intro frames
  refine ⟨⟨frames, .complete (.array items)⟩, ?_, .complete _⟩
  have hopen : step ⟨frames, .value⟩ '[' = some ⟨.array [] :: frames, .value⟩ := rfl
  rw [chars_array, run_cons hopen]
  by_cases hne : items = []
  · rw [hne]
    rfl
  · refine run_separated (fun done => ⟨.array done :: frames, .value⟩)
      (fun done => ⟨frames, .complete (.array done)⟩) hne ?_ []
    intro item hitem done
    obtain ⟨s, hrun, hholds⟩ := h item hitem (.array done :: frames)
    refine ⟨s, hrun, ?_, ?_⟩
    · rw [hholds.step_eq rfl]
      rfl
    · rw [hholds.step_eq rfl]
      rfl

theorem reads_object {members : List (String × Json)} (h : ∀ member ∈ members, Reads member.2) :
    Reads (.object members) := by
  intro frames
  refine ⟨⟨frames, .complete (.object members)⟩, ?_, .complete _⟩
  have hopen : step ⟨frames, .value⟩ '\x7b' = some ⟨.object [] :: frames, .name⟩ := rfl
  rw [chars_object, run_cons hopen]
  by_cases hne : members = []
  · rw [hne]
    rfl
  · refine run_separated (fun done => ⟨.object done :: frames, .name⟩)
      (fun done => ⟨frames, .complete (.object done)⟩) hne ?_ []
    intro member hmember done
    obtain ⟨s, hrun, hholds⟩ := h member hmember (.member done member.1 :: frames)
    refine ⟨s, ?_, ?_, ?_⟩
    · rw [memberChars, List.append_cons, run_append (run_name done frames member.1)]
      exact hrun
    · rw [hholds.step_eq rfl]
      rfl
    · rw [hholds.step_eq rfl]
      rfl

theorem reads (json : Json) : Reads json := by
  induction json using induction with
  | string text => exact fun frames => ⟨_, by rw [chars_string, run_string], .complete _⟩
  | number n => exact fun frames => ⟨_, by rw [chars_number, run_number], .number n⟩
  | array items ih => exact reads_array ih
  | object members ih => exact reads_object ih

end State

/-- The text of a value is read as the value. -/
theorem read?_render (json : Json) : read? json.render = some json := by
  obtain ⟨s, hrun, hholds⟩ := State.reads json []
  rw [read?, ← chars, hrun, Option.bind_some, hholds.result?_eq]

/-- Other spellings of a value, with blanks and a surrogate pair. -/
example : (read? "[ \"\\ud83d\\uDE00\\/\" ,10, \x7b \x7d]").map render =
    some "[\"😀/\",10,\x7b\x7d]" := by
  decide +kernel

example : (read? "[1,]").isNone ∧ (read? "[01]").isNone ∧ (read? "\"\n\"").isNone ∧
    (read? "\"\\ude00\"").isNone := by
  decide +kernel

/-! ## One line -/

/-- No character is below the blank, a line feed or any other. -/
def Printable (text : List Char) : Prop :=
  ∀ c ∈ text, 0x20 ≤ c.toNat

instance (text : List Char) : Decidable (Printable text) :=
  List.decidableBAll _ text

namespace Printable

theorem append {text more : List Char} (h : Printable text) (hmore : Printable more) :
    Printable (text ++ more) :=
  List.forall_mem_append.2 ⟨h, hmore⟩

theorem cons {c : Char} {text : List Char} (hc : 0x20 ≤ c.toNat) (h : Printable text) :
    Printable (c :: text) :=
  List.forall_mem_cons.2 ⟨hc, h⟩

theorem intercalate {texts : List (List Char)} (h : ∀ text ∈ texts, Printable text) :
    Printable ([','].intercalate texts) := by
  induction texts with
  | nil => exact List.forall_mem_nil _
  | cons text texts ih =>
    obtain ⟨htext, htexts⟩ := List.forall_mem_cons.1 h
    cases texts with
    | nil =>
      rw [List.intercalate_singleton]
      exact htext
    | cons more texts =>
      rw [List.intercalate_cons_cons]
      exact (htext.append (by decide)).append (ih htexts)

end Printable

theorem printable_escape (c : Char) : Printable (escape c) := by
  have hdigit : ∀ n < 16, 0x20 ≤ (hexDigit n).toNat := by decide
  unfold escape
  split_ifs with hquote hslash hfeed hreturn htab hback hpage hcontrol
  · decide
  · decide
  · decide
  · decide
  · decide
  · decide
  · decide
  · have hhigh := hdigit (c.toNat / 16) (by omega)
    have hlow := hdigit (c.toNat % 16) (by omega)
    have hzeros : Printable ['\\', 'u', '0', '0'] := by decide
    exact hzeros.append (.cons hhigh (.cons hlow (List.forall_mem_nil _)))
  · exact .cons (Nat.le_of_not_lt hcontrol) (List.forall_mem_nil _)

theorem printable_quoteChars (text : String) : Printable (quoteChars text) := by
  have hescape : Printable (text.toList.flatMap escape) := by
    intro d hd
    obtain ⟨c, -, hd⟩ := List.mem_flatMap.1 hd
    exact printable_escape c d hd
  exact .cons (by decide) (hescape.append (by decide))

theorem printable_chars (json : Json) : Printable json.chars := by
  induction json using induction with
  | string text =>
    rw [chars_string]
    exact printable_quoteChars text
  | number n =>
    rw [chars_number]
    intro c hc
    have hdigit : '0' ≤ c ∧ c ≤ '9' := by
      simpa [isDigit] using (Decimal.isDigits_toString n).2 c hc
    exact Nat.le_trans (by decide) hdigit.1
  | array items ih =>
    rw [chars_array]
    refine .cons (by decide) (Printable.append (.intercalate ?_) (by decide))
    simpa using ih
  | object members ih =>
    rw [chars_object]
    refine .cons (by decide) (Printable.append (.intercalate ?_) (by decide))
    intro text htext
    obtain ⟨member, hmember, rfl⟩ := List.mem_map.1 htext
    exact (printable_quoteChars member.1).append (.cons (by decide) (ih member hmember))

end ArithVM.Json
