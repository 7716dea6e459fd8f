import ArithVM.CommandLine
import ArithVM.Report.Data
import ArithVM.Report.Terminal
import ArithVM.Session
import ArithVM.Text.Blank
import ArithVM.Text.Utf8

/-!
# The program — what an invocation writes and how it ends

Given a file or not, the program runs the file, shows the tokens of the file or of its input, or
reads expressions from its input line by line.  Values go to the standard output, listings, traces
and reports to the standard error.  Files and input come in as bytes, so nothing here touches the
outside world.
-/

namespace ArithVM

/-- Text for the two standard streams. -/
structure Output where
  out : String := ""
  err : String := ""
deriving DecidableEq, Repr

namespace Output

/-- What one part writes and then another. -/
def append (a b : Output) : Output :=
  ⟨a.out ++ b.out, a.err ++ b.err⟩

instance : Append Output := ⟨append⟩

end Output

/-- The choices that hold for a whole invocation. -/
structure Settings where
  options : Options := {}
  /-- Show reports and tokens as data. -/
  json : Bool := false
  /-- Paint reports. -/
  coloured : Bool := false
deriving DecidableEq, Repr

/-- The settings that a command line asks for. -/
def Arguments.settings (a : Arguments) (coloured : Bool) : Settings where
  options := { trace := a.trace, disassemble := a.disassemble }
  json := a.json
  coloured := coloured

namespace Program

/-- The name and version of the program. -/
def versionText : String := "loxvm 0.1.0\n"

/-- How to call the program. -/
def usageText : String :=
  String.join <| List.map (· ++ "\n")
    ["Compile and run expressions on the loxvm bytecode VM",
     "",
     "Usage: loxvm [OPTIONS] [FILE]",
     "",
     "Arguments:",
     "  [FILE]  Script to run. Starts a REPL when omitted",
     "",
     "Options:",
     "      --disassemble     Print the compiled chunk to stderr before running it",
     "      --trace           Log every instruction with the stack contents",
     "      --tokens          Print the token stream and exit",
     "      --json            Emit diagnostics (and --tokens output) as JSON",
     "      --explain <CODE>  Explain an error code, e.g. LOX-C001",
     "  -h, --help            Print help",
     "  -V, --version         Print version"]

/-- What asks for the next line of input. -/
def prompt : String := "> "

/-- A report as it is written to the standard error. -/
def reportText (settings : Settings) (r : Report) : String :=
  if settings.json then r.toJson.render ++ "\n" else r.render settings.coloured

/-- The messages of a tracing machine as log lines.  Of the log only these are told: the time that
    is put in front of each is left out, and so are the events of level `DEBUG` that come with them,
    one for a source that is compiled, for a run, for its return or fault, and for the value. -/
def traceText (trace : List String) : String :=
  String.join (trace.map fun message => "TRACE " ++ message ++ "\n")

/-- What went wrong with bytes that should be text. -/
def notUtf8 : String := "stream did not contain valid UTF-8"

/-- Explains an error code, or lists the known codes if this is none of them. -/
def explain (code : String) : Output × ExitStatus :=
  match ErrorCode.ofText? code with
  | some known => ({ out := known.explanation }, .success)
  | none =>
    let row (known : ErrorCode) := "  " ++ Text.padRight 10 known.text ++ known.summary ++ "\n"
    ({ err := "unknown error code: " ++ code ++ "\n\nknown codes:\n"
        ++ String.join (ErrorCode.all.map row) },
      .usage)

/-- What running a source writes: the listing and the trace, then the value or the report. -/
def runOutput (settings : Settings) (source : String) (run : Session.Run) : Output :=
  let log := run.listing ++ traceText run.trace
  match run.result with
  | .ok (some v) => { out := v.text ++ "\n", err := log }
  | .ok none => { err := log }
  | .error e => { err := log ++ reportText settings (e.report source) }

/-- Runs the source of a file in a session of its own. -/
def runFile (settings : Settings) (source : String) : Output × ExitStatus :=
  let run := (Session.new settings.options).run source none
  (runOutput settings source run,
    match run.result with
    | .ok _ => .success
    | .error e => e.exitStatus)

/-- The tokens of a source, as a table or as data. -/
def tokensText (settings : Settings) (source : String) : String :=
  if settings.json then
    (Token.listToJson (Tokens.ofSource source).toList).render ++ "\n"
  else
    Token.table source

/-- The report of a file that cannot be read. -/
def unreadable (path reason : String) : Report :=
  (Report.error ("Could not open file \"" ++ path ++ "\".")).withNote reason

/-- Runs a file or shows its tokens; `contents` are its bytes, or why there are none. -/
def fileMode (settings : Settings) (tokens : Bool) (path : String)
    (contents : Except String (List UInt8)) : Output × ExitStatus :=
  let source := do
    match Text.decode? (← contents) with
    | some source => Except.ok source
    | none => .error notUtf8
  match source with
  | .error reason => ({ err := reportText settings (unreadable path reason) }, .ioError)
  | .ok source =>
    if tokens then ({ out := tokensText settings source }, .success)
    else runFile settings source

/-- Shows the tokens of the standard input. -/
def inputTokens (settings : Settings) (input : List UInt8) : Output × ExitStatus :=
  match Text.decode? input with
  | some source => ({ out := tokensText settings source }, .success)
  | none => ({ err := reportText settings (.error notUtf8) }, .ioError)

/-- Answers one line of input.  Blank lines have no answer, errors are reported and forgotten, and
    a line that is no text ends the dialogue. -/
def answerLine (settings : Settings) (session : Session) (line : List UInt8) :
    Output × Except ExitStatus Session :=
  match Text.decode? line with
  | none => ({ err := reportText settings (.error notUtf8) }, .error .ioError)
  | some source =>
    if Text.isBlank source then ({}, .ok session)
    else
      let run := session.run source none
      (runOutput settings source run, .ok run.session)

/-- The dialogue over the lines of some input: a prompt before each, and at the end a prompt and a
    line feed. -/
def dialogue (settings : Settings) (session : Session) :
    List (List UInt8) → Output × ExitStatus
  | [] => ({ out := prompt ++ "\n" }, .success)
  | line :: lines =>
    match answerLine settings session line with
    | (output, .error status) => ({ out := prompt } ++ output, status)
    | (output, .ok session) =>
      let (later, status) := dialogue settings session lines
      ({ out := prompt } ++ output ++ later, status)

/-- What is left to do once the arguments are read. -/
inductive Task where
  /-- Write this and end. -/
  | finish (output : Output) (status : ExitStatus)
  /-- Read this file, and show its tokens or run it. -/
  | file (tokens : Bool) (path : String)
  /-- Show the tokens of the input. -/
  | inputTokens
  /-- Answer the input line by line. -/
  | dialogue

/-- The task that a command line sets.  An explanation goes before anything else. -/
def task (a : Arguments) : Task :=
  match a.explain?, a.file?, a.tokens with
  | some code, _, _ => .finish (explain code).1 (explain code).2
  | none, some path, tokens => .file tokens path
  | none, none, true => .inputTokens
  | none, none, false => .dialogue

/-- The whole program, without colours: what it writes for its arguments, the files it can read and
    its standard input, and how it ends. -/
def run (arguments : List String) (readFile : String → Except String (List UInt8))
    (input : List UInt8) : Output × ExitStatus :=
  match Arguments.parse arguments with
  | .help => ({ out := usageText }, .success)
  | .version => ({ out := versionText }, .success)
  | .misuse => ({ err := usageText }, .usage)
  | .run a =>
    let settings := a.settings false
    match task a with
    | .finish output status => (output, status)
    | .file tokens path => fileMode settings tokens path (readFile path)
    | .inputTokens => inputTokens settings input
    | .dialogue => dialogue settings (.new settings.options) (Text.splitLines input)

end Program

end ArithVM
