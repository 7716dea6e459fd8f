import ArithVM.Proofs.Machine.Evaluation
import ArithVM.Proofs.Machine.Trace
import ArithVM.Proofs.Program.Flags
import ArithVM.Proofs.Session.History

/-!
# Files — what comes of running a file

A source that compiles is answered with its value, any other with one report.  The options add a
listing and a trace to the standard error in the first case and nothing in the second, so neither
the standard output nor the exit status depends on them.
-/

namespace ArithVM

/-- A report tells of a compile error in this source: what it is, and where. -/
structure Report.TellsOf (r : Report) (error : CompileError) (source : String) : Prop where
  code : r.code? = some error.code.text
  message : r.message = error.message
  line : r.line? = some error.line
  label : ∃ remark, r.label? = some ⟨error.span, remark⟩
  source : r.source? = some source

theorem CompileError.tellsOf_report (error : CompileError) (source : String) :
    (error.report.withSource source).TellsOf error source :=
  ⟨rfl, rfl, rfl, ⟨_, rfl⟩, rfl⟩

namespace Program

/-- What a chunk leaves on the standard error while it runs: its listing and its trace, so far as
    they are asked for. -/
def log (options : Options) (c : Chunk) : String :=
  (if options.disassemble then c.listing "code" else "") ++
    if options.trace then
      String.join (((Machine.new true).execute c).trace.map fun message =>
        "TRACE " ++ message ++ "\n")
    else ""

theorem traceText_execute {m : Machine} {options : Options} (h : m.tracing = options.trace)
    (c : Chunk) :
    traceText (m.execute c).trace =
      if options.trace then traceText ((Machine.new true).execute c).trace else "" := by
  split
  next htrace =>
    have htracing : m.tracing = (Machine.new true).tracing := h.trans htrace
    rw [Machine.execute_of_tracing htracing]
  next htrace =>
    rw [Machine.trace_execute_of_not_tracing (h.trans (eq_false_of_ne_true htrace))]
    rfl

/-! ## One source -/

/-- A source that compiles is answered with the value of its tree, in every session. -/
theorem exists_runOutput_of_ok {source : String} {c : Chunk} (h : Chunk.compile source = .ok c) :
    ∃ e, Derives .term e (Tokens.ofSource source).body ∧
      ∀ (settings : Settings) (s : Session), s.Agrees settings.options →
        (s.run source none).result = .ok (some e.eval) ∧
        runOutput settings source (s.run source none) =
          { out := e.eval.text ++ "\n", err := log settings.options c } := by
  obtain ⟨e, he, -, hnumbers, rfl⟩ := compile_eq_ok_iff.1 h
  refine ⟨e, he, ?_⟩
  intro settings s hs
  have hruns : ¬ Call.Fails settings.options ⟨source, none⟩ := by
    rintro (⟨error, herror⟩ | ⟨-, hwrite⟩)
    · rw [h] at herror
      contradiction
    · exact hwrite rfl
  obtain ⟨c, hc, hon⟩ := Session.on_of_not_fails hruns
  rw [h] at hc
  cases hc
  have hrun : s.run source none = _ := hon s hs.1
  have hresult := (Machine.execute_chunk hnumbers (Tokens.ofSource source).finish.line s.machine).1
  have htrace := traceText_execute hs.2 (e.chunk (Tokens.ofSource source).finish.line)
  rw [hrun, hresult, runOutput, htrace, log]
  exact ⟨rfl, rfl⟩

/-- A source that does not compile is answered with a report and nothing else. -/
theorem runOutput_of_error {source : String} {error : CompileError}
    (h : Chunk.compile source = .error error) (settings : Settings) (s : Session) :
    (s.run source none).result = .error (.compile error) ∧
      runOutput settings source (s.run source none) =
        { out := "", err := reportText settings (error.report.withSource source) } := by
  have hrun : s.run source none = ⟨.error (.compile error), "", [], s⟩ := by
    simp only [Session.run, h]
  have hlog : "" ++ traceText [] = "" := rfl
  rw [hrun, runOutput]
  refine ⟨rfl, ?_⟩
  simp only [hlog, String.empty_append]
  rfl

/-! ## One file -/

variable {source : String}

theorem exists_runFile_of_ok {c : Chunk} (h : Chunk.compile source = .ok c) :
    ∃ e, Derives .term e (Tokens.ofSource source).body ∧ ∀ settings,
      runFile settings source =
        ({ out := e.eval.text ++ "\n", err := log settings.options c }, .success) := by
  obtain ⟨e, he, hrun⟩ := exists_runOutput_of_ok h
  refine ⟨e, he, ?_⟩
  intro settings
  obtain ⟨hresult, houtput⟩ := hrun settings (.new settings.options) ⟨rfl, rfl⟩
  rw [runFile, houtput, hresult]

theorem runFile_of_error {error : CompileError} (h : Chunk.compile source = .error error)
    (settings : Settings) :
    runFile settings source =
      ({ out := "", err := reportText settings (error.report.withSource source) },
        .dataError) := by
  obtain ⟨hresult, houtput⟩ := runOutput_of_error h settings (.new settings.options)
  rw [runFile, houtput, hresult]
  rfl

/-- The standard output and the exit status are the same under all settings. -/
theorem runFile_settings (source : String) (settings other : Settings) :
    (runFile settings source).1.out = (runFile other source).1.out ∧
      (runFile settings source).2 = (runFile other source).2 := by
  cases h : Chunk.compile source with
  | ok c =>
    obtain ⟨e, -, hrun⟩ := exists_runFile_of_ok h
    rw [hrun, hrun]
    exact ⟨rfl, rfl⟩
  | error error =>
    rw [runFile_of_error h, runFile_of_error h]
    exact ⟨rfl, rfl⟩

theorem number_runFile (settings : Settings) (source : String) :
    (runFile settings source).2.number = 0 ∨ (runFile settings source).2.number = 65 := by
  cases h : Chunk.compile source with
  | ok c =>
    obtain ⟨e, -, hrun⟩ := exists_runFile_of_ok h
    rw [hrun]
    exact .inl rfl
  | error error =>
    rw [runFile_of_error h]
    exact .inr rfl

theorem fileMode_of_decode {bytes : List UInt8} (h : Text.decode? bytes = some source)
    (settings : Settings) (path : String) :
    fileMode settings false path (.ok bytes) = runFile settings source := by
  simp only [fileMode, bind, Except.bind, h]
  rfl

theorem run_of_file {arguments : List String} {a : Arguments} {path : String}
    {readFile : String → Except String (List UInt8)} {bytes : List UInt8}
    (hparse : Arguments.parse arguments = .run a) (hfile : a.file? = some path)
    (htokens : a.tokens = false) (hexplain : a.explain? = none) (hread : readFile path = .ok bytes)
    (input : List UInt8) :
    run arguments readFile input = fileMode (a.settings false) false path (.ok bytes) := by
  simp only [run, hparse, task, hfile, htokens, hexplain, hread]

/-- **A file has two outcomes.**  The program ends with status 0 and the value, or with status 65
    and the report of one error, whatever the settings and in whatever way the command line asks
    for the file.  The settings change nothing but the listing and the trace in the first case and
    the form of the report in the second: it is data, or text for a terminal. -/
theorem file_outcomes {bytes : List UInt8} (hsource : Text.decode? bytes = some source)
    (path : String) :
    (∀ c, Chunk.compile source = .ok c →
      ∃ e, Derives .term e (Tokens.ofSource source).body ∧ ∀ settings,
        fileMode settings false path (.ok bytes) =
          ({ out := e.eval.text ++ "\n", err := log settings.options c }, .success)) ∧
    (∀ error, Chunk.compile source = .error error →
      (error.report.withSource source).TellsOf error source ∧ ∀ settings,
        fileMode settings false path (.ok bytes) =
          ({ out := ""
             err :=
              if settings.json then (error.report.withSource source).toJson.render ++ "\n"
              else (error.report.withSource source).render settings.coloured },
            .dataError)) ∧
    ExitStatus.success.number = 0 ∧ ExitStatus.dataError.number = 65 ∧
    (∀ settings, (fileMode settings false path (.ok bytes)).2.number = 0 ∨
      (fileMode settings false path (.ok bytes)).2.number = 65) ∧
    (∀ settings other,
      (fileMode settings false path (.ok bytes)).1.out =
        (fileMode other false path (.ok bytes)).1.out ∧
      (fileMode settings false path (.ok bytes)).2 =
        (fileMode other false path (.ok bytes)).2) ∧
    (∀ arguments a readFile input, Arguments.parse arguments = .run a → a.file? = some path →
      a.tokens = false → a.explain? = none → readFile path = .ok bytes →
      run arguments readFile input = fileMode (a.settings false) false path (.ok bytes)) ∧
    ∀ (settings : Settings) readFile input, settings.coloured = false → path ≠ "" →
      readFile path = .ok bytes →
      run (settings.flags.map Arguments.Flag.text ++ ["--", path]) readFile input =
        fileMode settings false path (.ok bytes) := by
  have hmode (settings : Settings) := fileMode_of_decode hsource settings path
  simp only [hmode]
  refine ⟨fun c => exists_runFile_of_ok,
    fun error herror => ⟨error.tellsOf_report source, runFile_of_error herror⟩, rfl, rfl,
    fun settings => number_runFile settings source, runFile_settings source, ?arguments, ?flags⟩
  case arguments =>
    intro arguments a readFile input hparse hfile htokens hexplain hread
    rw [run_of_file hparse hfile htokens hexplain hread, hmode]
  case flags =>
    intro settings readFile input hplain hpath hread
    rw [run_of_file (settings.parse_flags_append hpath) rfl rfl rfl hread,
      Settings.settings_arguments hplain, hmode]

/-- A file that compiles and one that does not, each under a command line with all three flags, and
    the second without flags too. -/
theorem file_outcomes_with_all_flags :
    (∃ c, Chunk.compile "1+2" = .ok c ∧ ∃ e, Derives .term e (Tokens.ofSource "1+2").body ∧
      run ["--json", "sum.lox", "--trace", "--disassemble"] (fun _ => .ok [49, 43, 50]) [] =
        ({ out := e.eval.text ++ "\n", err := log ⟨true, true⟩ c }, .success)) ∧
    ∃ error, Chunk.compile "1+" = .error error ∧
      run ["--json", "sum.lox", "--trace", "--disassemble"] (fun _ => .ok [49, 43]) [] =
        ({ out := "", err := (error.report.withSource "1+").toJson.render ++ "\n" },
          .dataError) ∧
      run ["--", "sum.lox"] (fun _ => .ok [49, 43]) [] =
        ({ out := "", err := (error.report.withSource "1+").render false }, .dataError) := by
  have hok : ∃ c, Chunk.compile "1+2" = .ok c := by
    have hsum : (Chunk.compile "1+2").isOk = true := by decide +kernel
    cases h : Chunk.compile "1+2" with
    | ok c => exact ⟨c, rfl⟩
    | error error =>
      rw [h] at hsum
      contradiction
  have herror : ∃ error, Chunk.compile "1+" = .error error := by
    have hopen : (Chunk.compile "1+").isOk = false := by decide +kernel
    cases h : Chunk.compile "1+" with
    | error error => exact ⟨error, rfl⟩
    | ok c =>
      rw [h] at hopen
      contradiction
  have hparse : Arguments.parse ["--json", "sum.lox", "--trace", "--disassemble"] =
      .run ⟨some "sum.lox", true, true, false, true, none⟩ := by
    decide +kernel
  have hsum : Text.decode? [49, 43, 50] = some "1+2" := by decide +kernel
  have hopen : Text.decode? [49, 43] = some "1+" := by decide +kernel
  obtain ⟨hvalue, -, -, -, -, -, hrun, -⟩ := file_outcomes hsum "sum.lox"
  obtain ⟨-, hreport, -, -, -, -, hrun', hflags⟩ := file_outcomes hopen "sum.lox"
  obtain ⟨c, hc⟩ := hok
  obtain ⟨error, he'⟩ := herror
  obtain ⟨e, he, hmode⟩ := hvalue c hc
  obtain ⟨-, hmode'⟩ := hreport error he'
  exact ⟨⟨c, hc, e, he, (hrun _ _ _ _ hparse rfl rfl rfl rfl).trans (hmode _)⟩,
    ⟨error, he', (hrun' _ _ _ _ hparse rfl rfl rfl rfl).trans (hmode' _),
      (hflags {} _ _ rfl (by decide) rfl).trans (hmode' _)⟩⟩

-- The end of the input, where an operand is missing.
example : (run ["--", "sum.lox"] (fun _ => .ok [49, 43]) []).1.err =
    "error[LOX-C001]: Expect expression.\n  --> 1:3\n  |\n1 | 1+\n" ++
      "  |   ^ input ends here\n  |\n" := by
  decide +kernel

end Program

end ArithVM
