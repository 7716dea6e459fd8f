import ArithVM.Proofs.Program.Files

/-!
# The dialogue — lines that know nothing of each other

Input is cut behind its line feeds.  White space has no answer, and every other line is answered as
a session of its own would answer it, whatever was asked before: a line that does not compile has a
report, no value, and ends nothing.  The dialogue ends with the input, or at the first line that is
no text.
-/

namespace ArithVM

/-! ## Lines of input -/

namespace Text

/-- The lines of some input, each with its line feed; the last one may lack it. -/
inductive Lines : List UInt8 → List (List UInt8) → Prop where
  | nil : Lines [] []
  | last {line : List UInt8} (hne : line ≠ []) (hline : 10 ∉ line) : Lines line [line]
  | cons {line input : List UInt8} {lines : List (List UInt8)} (hline : 10 ∉ line)
    (hinput : Lines input lines) : Lines (line ++ 10 :: input) ((line ++ [10]) :: lines)

theorem splitLines_cons_of_ne {byte : UInt8} (hbyte : byte ≠ 10) (bytes : List UInt8) :
    splitLines (byte :: bytes) =
      match splitLines bytes with
      | [] => [[byte]]
      | line :: lines => (byte :: line) :: lines := by
  rw [splitLines]
  exact if_neg hbyte

theorem lines_splitLines (input : List UInt8) : Lines input (splitLines input) := by
  induction input with
  | nil => exact .nil
  | cons byte bytes ih =>
    by_cases hbyte : byte = 10
    · rw [splitLines, if_pos hbyte, hbyte]
      show Lines ([] ++ 10 :: bytes) (([] ++ [10]) :: splitLines bytes)
      exact .cons (by simp) ih
    · rw [splitLines_cons_of_ne hbyte]
      -- The byte goes to the front of the first line there is.
      generalize splitLines bytes = lines at ih
      cases ih with
      | nil => exact .last (by simp) (by simpa using Ne.symm hbyte)
      | last hne hline => exact .last (by simp) (by simp [Ne.symm hbyte, hline])
      | @cons line _ _ hline hinput =>
        have hmore : 10 ∉ byte :: line := by simp [Ne.symm hbyte, hline]
        exact .cons hmore hinput

theorem splitLines_append_cons {line : List UInt8} (hline : 10 ∉ line) (input : List UInt8) :
    splitLines (line ++ 10 :: input) = (line ++ [10]) :: splitLines input := by
  induction line with
  | nil => rw [List.nil_append, splitLines, if_pos rfl, List.nil_append]
  | cons byte line ih =>
    rw [List.mem_cons, not_or] at hline
    rw [List.cons_append, splitLines_cons_of_ne (Ne.symm hline.1), ih hline.2]
    rfl

theorem splitLines_of_notMem {line : List UInt8} (hne : line ≠ []) (hline : 10 ∉ line) :
    splitLines line = [line] := by
  induction line with
  | nil => contradiction
  | cons byte line ih =>
    rw [List.mem_cons, not_or] at hline
    rw [splitLines_cons_of_ne (Ne.symm hline.1)]
    cases line with
    | nil => rfl
    | cons more line => rw [ih (by simp) hline.2]

/-- There is one way to cut some input into lines. -/
theorem Lines.eq_splitLines {input : List UInt8} {lines : List (List UInt8)}
    (h : Lines input lines) : lines = splitLines input := by
  induction h with
  | nil => rfl
  | last hne hline => rw [splitLines_of_notMem hne hline]
  | cons hline _ ih => rw [splitLines_append_cons hline, ih]

/-! ## White space -/

/-- The code points of Unicode that have the property `White_Space`. -/
def whiteSpace : List Nat :=
  [0x9, 0xA, 0xB, 0xC, 0xD, 0x20, 0x85, 0xA0, 0x1680, 0x2000, 0x2001, 0x2002, 0x2003, 0x2004,
   0x2005, 0x2006, 0x2007, 0x2008, 0x2009, 0x200A, 0x2028, 0x2029, 0x202F, 0x205F, 0x3000]

/-- There is nothing but white space in a text. -/
def Blank (text : String) : Prop :=
  ∀ c ∈ text.toList, c.toNat ∈ whiteSpace

theorem isWhiteSpace_iff (c : Char) : isWhiteSpace c ↔ c.toNat ∈ whiteSpace := by
  simp only [isWhiteSpace, whiteSpaceRanges, whiteSpace, List.any_cons, List.any_nil,
    Bool.or_eq_true, Bool.and_eq_true, decide_eq_true_eq, Bool.false_eq_true, List.mem_cons,
    List.not_mem_nil, or_false]
  omega

theorem isBlank_iff (text : String) : isBlank text ↔ Blank text := by
  simp only [isBlank, Blank, List.all_eq_true, isWhiteSpace_iff]

end Text

namespace Output

theorem empty_append (a : Output) : {} ++ a = a := by
  show Output.mk ("" ++ a.out) ("" ++ a.err) = a
  rw [String.empty_append, String.empty_append]

theorem append_assoc (a b c : Output) : a ++ b ++ c = a ++ (b ++ c) := by
  show Output.mk (a.out ++ b.out ++ c.out) (a.err ++ b.err ++ c.err) =
    ⟨a.out ++ (b.out ++ c.out), a.err ++ (b.err ++ c.err)⟩
  rw [String.append_assoc, String.append_assoc]

end Output

namespace Program

open Text

variable {settings : Settings} {s : Session}

/-! ## One line -/

/-- What a line is answered with in a session of its own. -/
def answerAlone (settings : Settings) (line : List UInt8) : Output :=
  (answerLine settings (.new settings.options) line).1

theorem answerLine_of_isBlank {line : List UInt8} {source : String}
    (hline : decode? line = some source) (hblank : isBlank source) (s : Session) :
    answerLine settings s line = ({}, .ok s) := by
  simp only [answerLine, hline, hblank, if_true]

theorem answerLine_of_not_isBlank {line : List UInt8} {source : String}
    (hline : decode? line = some source) (hblank : ¬ isBlank source) (s : Session) :
    answerLine settings s line =
      (runOutput settings source (s.run source none), .ok (s.run source none).session) := by
  simp only [answerLine, hline, hblank, Bool.false_eq_true, if_false]

theorem runOutput_of_agrees (hs : s.Agrees settings.options) (source : String) :
    runOutput settings source (s.run source none) = (runFile settings source).1 := by
  cases h : Chunk.compile source with
  | ok c =>
    obtain ⟨e, -, hrun⟩ := exists_runOutput_of_ok h
    rw [runFile, (hrun settings s hs).2, (hrun settings (.new settings.options) ⟨rfl, rfl⟩).2]
  | error error =>
    rw [runFile, (runOutput_of_error h settings s).2,
      (runOutput_of_error h settings (.new settings.options)).2]

/-- A line that is text is answered as it would be alone, and the session goes on. -/
theorem answerLine_of_agrees (hs : s.Agrees settings.options) {line : List UInt8}
    {source : String} (hline : decode? line = some source) :
    ∃ next : Session, next.Agrees settings.options ∧
      answerLine settings s line = (answerAlone settings line, .ok next) := by
  by_cases hblank : isBlank source
  · refine ⟨s, hs, ?_⟩
    rw [answerAlone, answerLine_of_isBlank hline hblank, answerLine_of_isBlank hline hblank]
  · refine ⟨(s.run source none).session, Session.agrees_on hs ⟨source, none⟩, ?_⟩
    rw [answerAlone, answerLine_of_not_isBlank hline hblank,
      answerLine_of_not_isBlank hline hblank, runOutput_of_agrees hs,
      runOutput_of_agrees (s := .new settings.options) ⟨rfl, rfl⟩]

/-! ## Many lines -/

/-- These lines are text. -/
def Readable (lines : List (List UInt8)) : Prop :=
  ∀ line ∈ lines, ∃ source, decode? line = some source

/-- What these lines are answered with, each alone, with a prompt in front of each answer. -/
def answers (settings : Settings) (lines : List (List UInt8)) : Output where
  out := String.join (lines.map fun line => prompt ++ (answerAlone settings line).out)
  err := String.join (lines.map fun line => (answerAlone settings line).err)

theorem answers_cons (line : List UInt8) (lines : List (List UInt8)) :
    answers settings (line :: lines) =
      { out := prompt } ++ answerAlone settings line ++ answers settings lines := by
  show answers settings (line :: lines) =
    ⟨prompt ++ (answerAlone settings line).out ++ (answers settings lines).out,
      "" ++ (answerAlone settings line).err ++ (answers settings lines).err⟩
  simp only [answers, List.map_cons, String.join_cons, String.empty_append]

/-- Behind lines that are text the dialogue goes on as it would have begun. -/
theorem dialogue_append (hs : s.Agrees settings.options) {readable : List (List UInt8)}
    (hreadable : Readable readable) (rest : List (List UInt8)) :
    ∃ last : Session, last.Agrees settings.options ∧
      dialogue settings s (readable ++ rest) =
        (answers settings readable ++ (dialogue settings last rest).1,
          (dialogue settings last rest).2) := by
  -- The session differs from line to line, though not in anything that an answer depends on.
  induction readable generalizing s with
  | nil => exact ⟨s, hs, Prod.ext (Output.empty_append _).symm rfl⟩
  | cons line readable ih =>
    obtain ⟨hline, hreadable⟩ := List.forall_mem_cons.1 hreadable
    obtain ⟨source, hsource⟩ := hline
    obtain ⟨next, hnext, hanswer⟩ := answerLine_of_agrees hs hsource
    obtain ⟨last, hlast, hlater⟩ := ih hnext hreadable
    refine ⟨last, hlast, ?_⟩
    rw [List.cons_append, dialogue, hanswer]
    simp only [hlater, answers_cons, Output.append_assoc]

/-- Lines are text up to the first that is none. -/
theorem exists_readable_append (lines : List (List UInt8)) :
    ∃ readable rest, lines = readable ++ rest ∧ Readable readable ∧
      ∀ bad ∈ rest.head?, decode? bad = none := by
  induction lines with
  | nil => exact ⟨[], [], rfl, by simp [Readable], by simp⟩
  | cons line lines ih =>
    cases hline : decode? line with
    | none => exact ⟨[], line :: lines, rfl, by simp [Readable], by simp [hline]⟩
    | some source =>
      obtain ⟨readable, rest, rfl, hreadable, hrest⟩ := ih
      exact ⟨line :: readable, rest, rfl, List.forall_mem_cons.2 ⟨⟨source, hline⟩, hreadable⟩, hrest⟩

theorem dialogue_of_readable (hs : s.Agrees settings.options) {lines : List (List UInt8)}
    (hlines : Readable lines) :
    dialogue settings s lines =
      (answers settings lines ++ { out := prompt ++ "\n" }, .success) := by
  obtain ⟨last, -, h⟩ := dialogue_append hs hlines []
  rw [List.append_nil] at h
  rw [h, dialogue]

theorem dialogue_of_bad (hs : s.Agrees settings.options) {readable : List (List UInt8)}
    (hreadable : Readable readable) {bad : List UInt8} (hbad : decode? bad = none)
    (later : List (List UInt8)) :
    dialogue settings s (readable ++ bad :: later) =
      (answers settings readable ++ { out := prompt, err := reportText settings (.error notUtf8) },
        .ioError) := by
  have hanswer (last : Session) : answerLine settings last bad =
      ({ err := reportText settings (.error notUtf8) }, .error .ioError) := by
    simp only [answerLine, hbad]
  obtain ⟨last, -, h⟩ := dialogue_append hs hreadable (bad :: later)
  rw [h, dialogue, hanswer]
  show (_ ++ Output.mk (prompt ++ "") ("" ++ _), _) = _
  rw [String.append_empty, String.empty_append]

/-- The answer that a text on a line of its own should have. -/
structure IsAnswer (settings : Settings) (source : String) (answer : Output) : Prop where
  /-- White space has no answer. -/
  blank : Blank source → answer = {}
  /-- What compiles is answered with its value, and with the listing and the trace asked for. -/
  value : ¬ Blank source → ∀ c, Chunk.compile source = .ok c →
    ∃ e, Derives .term e (Tokens.ofSource source).body ∧
      answer = { out := e.eval.text ++ "\n", err := log settings.options c }
  /-- What does not compile has no value, and one report. -/
  report : ¬ Blank source → ∀ error, Chunk.compile source = .error error →
    answer =
      { out := ""
        err :=
          if settings.json then (error.report.withSource source).toJson.render ++ "\n"
          else (error.report.withSource source).render settings.coloured }
  /-- The answer is that of a session in which nothing else is run. -/
  alone : ¬ Blank source → answer = (runFile settings source).1

theorem isAnswer_answerAlone {line : List UInt8} {source : String}
    (hline : decode? line = some source) : IsAnswer settings source (answerAlone settings line) := by
  by_cases hblank : isBlank source
  · have hwhite : Blank source := (isBlank_iff source).1 hblank
    rw [answerAlone, answerLine_of_isBlank hline hblank]
    exact ⟨fun _ => rfl, absurd hwhite, absurd hwhite, absurd hwhite⟩
  · have hink : ¬ Blank source := fun hwhite => hblank ((isBlank_iff source).2 hwhite)
    rw [answerAlone, answerLine_of_not_isBlank hline hblank,
      runOutput_of_agrees (s := .new settings.options) ⟨rfl, rfl⟩]
    refine ⟨fun hwhite => absurd hwhite hink, fun _ c hc => ?_, fun _ error herror => ?_,
      fun _ => rfl⟩
    · obtain ⟨e, he, hrun⟩ := exists_runFile_of_ok hc
      exact ⟨e, he, by rw [hrun]⟩
    · rw [runFile_of_error herror]
      rfl

theorem run_of_no_file {arguments : List String} {a : Arguments}
    (hparse : Arguments.parse arguments = .run a) (hfile : a.file? = none)
    (htokens : a.tokens = false) (hexplain : a.explain? = none)
    (readFile : String → Except String (List UInt8)) (input : List UInt8) :
    run arguments readFile input =
      dialogue (a.settings false) (.new (a.settings false).options) (splitLines input) := by
  simp only [run, hparse, task, hfile, htokens, hexplain]

/-- **Lines are answered one by one.**  Input splits into lines in one way.  Up to the first line
    that is no text, each has a prompt in front of it and the answer it would have alone, whatever
    errors came before; then there is a last prompt, and the program ends with status 0 at the end of
    the input, and with status 74 and the report of an input error at a line that is no text. -/
theorem dialogue_of_lines (settings : Settings) (input : List UInt8) :
    ∃ readable rest : List (List UInt8),
      (∀ lines, Lines input lines ↔ lines = readable ++ rest) ∧
      (∀ line ∈ readable, ∃ source, decode? line = some source ∧
        IsAnswer settings source (answerAlone settings line)) ∧
      (rest = [] ∧
          dialogue settings (.new settings.options) (splitLines input) =
            ({ out := String.join
                  (readable.map fun line => "> " ++ (answerAlone settings line).out) ++ "> " ++ "\n"
               err := String.join (readable.map fun line => (answerAlone settings line).err) },
              .success) ∨
        ∃ bad later, rest = bad :: later ∧ decode? bad = none ∧
          dialogue settings (.new settings.options) (splitLines input) =
            ({ out := String.join
                  (readable.map fun line => "> " ++ (answerAlone settings line).out) ++ "> "
               err := String.join (readable.map fun line => (answerAlone settings line).err) ++
                  if settings.json then
                    (Report.error "stream did not contain valid UTF-8").toJson.render ++ "\n"
                  else
                    (Report.error "stream did not contain valid UTF-8").render settings.coloured },
              .ioError)) ∧
      ExitStatus.success.number = 0 ∧ ExitStatus.ioError.number = 74 ∧
      (∀ arguments a readFile, Arguments.parse arguments = .run a → a.settings false = settings →
        a.file? = none → a.tokens = false → a.explain? = none →
        run arguments readFile input =
          dialogue settings (.new settings.options) (splitLines input)) ∧
      ∀ readFile, settings.coloured = false →
        run (settings.flags.map Arguments.Flag.text) readFile input =
          dialogue settings (.new settings.options) (splitLines input) := by
  obtain ⟨readable, rest, hsplit, hreadable, hrest⟩ := exists_readable_append (splitLines input)
  refine ⟨readable, rest, ?lines, ?answers, ?ending, rfl, rfl, ?program, ?flags⟩
  case lines =>
    intro lines
    rw [← hsplit]
    exact ⟨Lines.eq_splitLines, fun h => h ▸ lines_splitLines input⟩
  case answers =>
    intro line hline
    obtain ⟨source, hsource⟩ := hreadable line hline
    exact ⟨source, hsource, isAnswer_answerAlone hsource⟩
  case ending =>
    have hnew : (Session.new settings.options).Agrees settings.options := ⟨rfl, rfl⟩
    rw [hsplit]
    cases rest with
    | nil =>
      refine .inl ⟨rfl, ?_⟩
      rw [List.append_nil, dialogue_of_readable hnew hreadable]
      show (Output.mk (_ ++ (prompt ++ "\n")) (_ ++ ""), _) = _
      rw [String.append_empty, ← String.append_assoc]
      rfl
    | cons bad later =>
      have hbad : decode? bad = none := hrest bad rfl
      exact .inr ⟨bad, later, rfl, hbad, dialogue_of_bad hnew hreadable hbad later⟩
  case program =>
    rintro arguments a readFile hparse rfl hfile htokens hexplain
    exact run_of_no_file hparse hfile htokens hexplain readFile input
  case flags =>
    intro readFile hplain
    rw [run_of_no_file settings.parse_flags rfl rfl rfl, Settings.settings_arguments hplain]

-- A value, an error, a blank line and a value on a line that has no line feed.
example : (dialogue {} (.new {}) (splitLines [49, 10, 41, 10, 32, 10, 50])).1.out =
    "> 1\n> > > 2\n> \n" := by
  decide +kernel

end Program

end ArithVM
