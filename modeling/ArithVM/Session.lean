import ArithVM.Chunk.Compile
import ArithVM.Machine
import ArithVM.Report

/-!
# Sessions — sources compiled and run, one after the other

A session keeps one machine over many sources.  A source that does not compile, or whose listing
cannot be written, leaves the machine as it was; every other source is run from an empty stack.
-/

namespace ArithVM

/-- The exit statuses of a process. -/
inductive ExitStatus where
  | success | usage | dataError | softwareError | ioError
deriving DecidableEq, Repr

/-- The number that a process exits with. -/
def ExitStatus.number : ExitStatus → Nat
  | .success => 0
  | .usage => 64
  | .dataError => 65
  | .softwareError => 70
  | .ioError => 74

/-- How an interpretation ends. -/
inductive Outcome where
  | ok | compileError | runtimeError
deriving DecidableEq, Repr

/-- Why a source has no value. -/
inductive RunError where
  | compile (error : CompileError)
  | runtime (error : RuntimeError)
  /-- Output could not be written, for the reason given. -/
  | io (reason : String)
deriving DecidableEq, Repr

namespace RunError

def describe : RunError → String
  | .compile error => error.describe
  | .runtime error => error.describe
  | .io reason => "I/O error: " ++ reason

def exitStatus : RunError → ExitStatus
  | .compile _ => .dataError
  | .runtime _ => .softwareError
  | .io _ => .ioError

/-- The outcome of the interpretation; an output that fails says nothing about it. -/
def outcome? : RunError → Option Outcome
  | .compile _ => some .compileError
  | .runtime _ => some .runtimeError
  | .io _ => none

/-- The report of an error in `source`. -/
def report (source : String) : RunError → Report
  | .compile error => error.report.withSource source
  | .runtime error => error.report.withSource source
  | .io reason => .error reason

end RunError

/-- What a user may ask for besides the value. -/
structure Options where
  /-- Report each instruction with the stack before it. -/
  trace : Bool := false
  /-- List the code before it is run. -/
  disassemble : Bool := false
deriving DecidableEq, Repr

/-- A machine and the options it runs under. -/
structure Session where
  options : Options
  machine : Machine

namespace Session

/-- A session in which nothing has run yet. -/
def new (options : Options) : Session :=
  ⟨options, .new options.trace⟩

/-- What comes of running one source. -/
structure Run where
  result : Except RunError (Option Value)
  /-- The listing, if one was asked for and could be written. -/
  listing : String
  trace : List String
  /-- The session after the run. -/
  session : Session

/-- Compiles and runs a source.  `writeError?` is the reason why listings cannot be written, if they
    cannot. -/
def run (s : Session) (source : String) (writeError? : Option String) : Run :=
  match Chunk.compile source with
  | .error e => ⟨.error (.compile e), "", [], s⟩
  | .ok chunk =>
    match s.options.disassemble, writeError? with
    | true, some reason => ⟨.error (.io reason), "", [], s⟩
    | disassemble, _ =>
      let listing := if disassemble then chunk.listing "code" else ""
      let run := s.machine.execute chunk
      ⟨run.result.mapError .runtime, listing, run.trace, { s with machine := run.machine }⟩

end Session

/-- How a run ends, whatever its value. -/
def Machine.interpret (m : Machine) (c : Chunk) : Outcome × Machine :=
  let run := m.execute c
  match run.result with
  | .ok _ => (.ok, run.machine)
  | .error _ => (.runtimeError, run.machine)

/-- How a source fares in a session of its own. -/
def interpret (source : String) : Outcome :=
  match ((Session.new {}).run source none).result with
  | .ok _ => .ok
  | .error e => e.outcome?.getD .runtimeError

end ArithVM
