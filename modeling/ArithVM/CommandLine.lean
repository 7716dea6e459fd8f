/-!
# The command line

Arguments are read from left to right.  Options begin with two hyphens and may stand before or
behind the file; behind a bare `--` every argument is a file, and so is a single hyphen anywhere.
Nothing may be given twice.  A request for help or for the version is granted as soon as it is
reached, unless something wrong stands to its left.
-/

namespace ArithVM

/-- What a command line asks for. -/
structure Arguments where
  /-- The file to run. -/
  file? : Option String := none
  /-- List the code of each source. -/
  disassemble : Bool := false
  /-- Report each instruction. -/
  trace : Bool := false
  /-- Show tokens instead of running anything. -/
  tokens : Bool := false
  /-- Show reports and tokens as data. -/
  json : Bool := false
  /-- The error code to explain. -/
  explain? : Option String := none
deriving DecidableEq, Repr

/-- What a command line amounts to. -/
inductive Invocation where
  | run (arguments : Arguments)
  | help
  | version
  | misuse
deriving DecidableEq, Repr

namespace Arguments

/-- The options that take no value. -/
inductive Flag where
  | disassemble | trace | tokens | json
deriving DecidableEq, Repr

/-- The flag of this name. -/
def Flag.ofName? : String → Option Flag
  | "disassemble" => some .disassemble
  | "trace" => some .trace
  | "tokens" => some .tokens
  | "json" => some .json
  | _ => none

/-- Sets a flag that is not yet set. -/
def setFlag? (a : Arguments) : Flag → Option Arguments
  | .disassemble => if a.disassemble then none else some { a with disassemble := true }
  | .trace => if a.trace then none else some { a with trace := true }
  | .tokens => if a.tokens then none else some { a with tokens := true }
  | .json => if a.json then none else some { a with json := true }

/-- Takes the code to explain, unless there is one already. -/
def setExplain? (a : Arguments) (code : String) : Option Arguments :=
  if a.explain?.isSome then none else some { a with explain? := some code }

/-- Takes a file, unless there is one already or the name is empty. -/
def setFile? (a : Arguments) (name : String) : Option Arguments :=
  if a.file?.isSome || name = "" then none else some { a with file? := some name }

/-- Whether an argument is an option, or at least meant as one. -/
def isOption (argument : String) : Bool :=
  argument ≠ "-" && argument.toList.head? = some '-'

/-- Takes all arguments as files. -/
def parseFiles (a : Arguments) : List String → Invocation
  | [] => .run a
  | name :: names =>
    match a.setFile? name with
    | some a => parseFiles a names
    | none => .misuse

/-- Reads the arguments that are left, given what those before them ask for. -/
def parseFrom (a : Arguments) : List String → Invocation
  | [] => .run a
  | argument :: rest =>
    match argument.toList with
    | ['-', '-'] => parseFiles a rest
    | '-' :: '-' :: option =>
      let name := String.ofList (option.takeWhile (· ≠ '='))
      match option.dropWhile (· ≠ '='), rest with
      | _ :: value, rest =>
        -- A value behind an equals sign; only `--explain` takes one.
        if name = "explain" then
          match a.setExplain? (String.ofList value) with
          | some a => parseFrom a rest
          | none => .misuse
        else
          .misuse
      | [], rest =>
        if name = "help" then .help
        else if name = "version" then .version
        else if name = "explain" then
          match rest with
          | [] => .misuse
          | code :: rest =>
            if isOption code then .misuse
            else
              match a.setExplain? code with
              | some a => parseFrom a rest
              | none => .misuse
        else
          match (Flag.ofName? name).bind a.setFlag? with
          | some a => parseFrom a rest
          | none => .misuse
    -- Short options may stand together in one argument, and the first of them decides.
    | '-' :: 'h' :: _ => .help
    | '-' :: 'V' :: _ => .version
    | '-' :: _ :: _ => .misuse
    | _ =>
      match a.setFile? argument with
      | some a => parseFrom a rest
      | none => .misuse

/-- Reads a command line. -/
def parse (arguments : List String) : Invocation :=
  parseFrom {} arguments

end Arguments

end ArithVM
