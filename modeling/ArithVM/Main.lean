import ArithVM.Program

/-!
# The executable

The outer layer of the program: it reads files and the standard input, hands the bytes to `Program`
and writes out what comes back.  It decides nothing but how to wait for the next line.
-/

namespace ArithVM.Main

/-- Writes to both standard streams at once. -/
def write (output : Output) : IO Unit := do
  let out ← IO.getStdout
  out.putStr output.out
  out.flush
  IO.eprint output.err

/-- Why a system call failed, in the words of the system. -/
def reason : IO.Error → String
  | .noFileOrDirectory .. => words 2 "No such file or directory"
  | .inappropriateType _ number details => words number details
  | .permissionDenied _ number details => words number details
  | .invalidArgument _ number details => words number details
  | .otherError number details => words number details
  | e => e.toString
where
  words (number : UInt32) (details : String) : String :=
    details ++ " (os error " ++ toString number.toNat ++ ")"

/-- The bytes of a file, or why they cannot be read. -/
def contents (path : String) : IO (Except String (List UInt8)) := do
  try
    return .ok (← IO.FS.readBinFile path).data.toList
  catch e =>
    return .error (reason e)

/-- The bytes of a stream up to and including the next line feed; none at the end. -/
partial def readLine (stream : IO.FS.Stream) (line : ByteArray) : IO ByteArray := do
  let byte ← stream.read 1
  if byte.isEmpty then return line
  let line := line ++ byte
  if byte.data[0]? = some 10 then return line else readLine stream line

/-- All bytes of a stream that are left. -/
partial def readAll (stream : IO.FS.Stream) (bytes : ByteArray) : IO ByteArray := do
  let more ← stream.read 4096
  if more.isEmpty then return bytes else readAll stream (bytes ++ more)

/-- Answers the lines of a stream until it ends. -/
partial def dialogue (settings : Settings) (stream : IO.FS.Stream) (session : Session) :
    IO ExitStatus := do
  write { out := Program.prompt }
  let line ← readLine stream .empty
  if line.isEmpty then
    write { out := "\n" }
    return .success
  let (output, next) := Program.answerLine settings session line.data.toList
  write output
  match next with
  | .ok session => dialogue settings stream session
  | .error status => return status

/-- Writes what came of a task. -/
def finish (result : Output × ExitStatus) : IO ExitStatus := do
  write result.1
  return result.2

/-- Carries out what a command line asks for. -/
def perform (a : Arguments) (coloured : Bool) : IO ExitStatus := do
  let settings := a.settings coloured
  let stdin ← IO.getStdin
  match Program.task a with
  | .finish output status => finish (output, status)
  | .file tokens path => finish (Program.fileMode settings tokens path (← contents path))
  | .inputTokens =>
    finish (Program.inputTokens settings (← readAll stdin .empty).data.toList)
  | .dialogue => dialogue settings stdin (.new settings.options)

end ArithVM.Main

open ArithVM in
/-- Runs the program and ends with its exit status. -/
def main (arguments : List String) : IO UInt32 := do
  let status ← match Arguments.parse arguments with
    | .help => Main.finish ({ out := Program.usageText }, .success)
    | .version => Main.finish ({ out := Program.versionText }, .success)
    | .misuse => Main.finish ({ err := Program.usageText }, .usage)
    | .run a => do
      let plain ← IO.getEnv "NO_COLOR"
      let terminal ← (← IO.getStderr).isTty
      Main.perform a (plain.isNone && terminal)
  return UInt32.ofNat status.number
