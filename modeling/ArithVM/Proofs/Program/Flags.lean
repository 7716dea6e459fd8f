import ArithVM.Program
import Mathlib.Data.List.TakeWhile

/-!
# Flags — command lines for settings

Flags are read one by one, and each sets what was not set before.  So there is a command line for
all settings that one can ask for, with a file behind its flags or without; behind a bare `--` the
file may have any name but the empty one.
-/

namespace ArithVM

namespace Arguments

variable {a b : Arguments}

/-! ## One flag -/

/-- The name of a flag. -/
def Flag.name : Flag → String
  | .disassemble => "disassemble"
  | .trace => "trace"
  | .tokens => "tokens"
  | .json => "json"

/-- A flag as an argument. -/
def Flag.text (flag : Flag) : String :=
  "--" ++ flag.name

theorem Flag.ofName?_name (flag : Flag) : ofName? flag.name = some flag := by
  cases flag <;> rfl

theorem Flag.name_ne {name : String} (h : ofName? name = none) (flag : Flag) :
    flag.name ≠ name := by
  rintro rfl
  rw [ofName?_name] at h
  contradiction

theorem Flag.all_ne_equals (flag : Flag) : flag.name.toList.all (· ≠ '=') := by
  cases flag <;> decide

/-- A flag that is not set yet is set, and the rest is read from there. -/
theorem parseFrom_flag {flag : Flag} (h : a.setFlag? flag = some b) (rest : List String) :
    parseFrom a (flag.text :: rest) = parseFrom b rest := by
  have htext : flag.text.toList = '-' :: '-' :: flag.name.toList := String.toList_append ..
  -- Only an option with a name is one, and only one without a value is a flag.
  have hname : flag.name.toList ≠ [] := fun hnil =>
    flag.name_ne rfl (String.toList_eq_nil_iff.1 hnil)
  have hequals := List.all_eq_true.1 flag.all_ne_equals
  have hvalue : flag.name.toList.dropWhile (· ≠ '=') = [] := List.dropWhile_eq_nil_iff.2 hequals
  have hwhole : String.ofList (flag.name.toList.takeWhile (· ≠ '=')) = flag.name := by
    rw [List.takeWhile_eq_self_iff.2 hequals, String.ofList_toList]
  have hhelp : flag.name ≠ "help" := flag.name_ne rfl
  have hversion : flag.name ≠ "version" := flag.name_ne rfl
  have hexplain : flag.name ≠ "explain" := flag.name_ne rfl
  rw [parseFrom, htext]
  split
  case h_1 hbare => exact absurd (List.cons.inj (List.cons.inj hbare).2).2 hname
  case h_2 option hoption =>
    cases hoption
    rw [hvalue]
    simp only [hwhole, if_neg hhelp, if_neg hversion, if_neg hexplain, flag.ofName?_name,
      Option.bind_some, h]
  case h_3 hshort => simp at hshort
  case h_4 hshort => simp at hshort
  case h_5 hlong _ _ hshort => exact absurd (List.cons.inj (List.cons.inj hshort).2).1.symm hlong
  case h_6 hlong _ _ _ => exact absurd rfl (hlong _)

/-! ## Many flags -/

theorem parseFrom_flags {flags : List Flag} (h : flags.foldlM setFlag? a = some b)
    (rest : List String) : parseFrom a (flags.map Flag.text ++ rest) = parseFrom b rest := by
  induction flags generalizing a with
  | nil =>
    cases h
    rfl
  | cons flag flags ih =>
    rw [List.foldlM_cons, Option.bind_eq_bind, Option.bind_eq_some_iff] at h
    obtain ⟨next, hflag, hflags⟩ := h
    rw [List.map_cons, List.cons_append, parseFrom_flag hflag, ih hflags]

end Arguments

namespace Settings

open Arguments

variable (settings : Settings)

/-- The flags that ask for these settings. -/
def flags : List Flag :=
  (if settings.options.disassemble then [.disassemble] else []) ++
    (if settings.options.trace then [.trace] else []) ++
    if settings.json then [.json] else []

/-- The arguments that are read from the flags for these settings. -/
def arguments (file? : Option String) : Arguments where
  file?
  disassemble := settings.options.disassemble
  trace := settings.options.trace
  json := settings.json

theorem foldlM_setFlag?_flags :
    settings.flags.foldlM setFlag? {} = some (settings.arguments none) := by
  obtain ⟨⟨trace, disassemble⟩, json, coloured⟩ := settings
  cases disassemble <;> cases trace <;> cases json <;> rfl

/-- Flags alone are read as the settings they ask for. -/
theorem parse_flags : parse (settings.flags.map Flag.text) = .run (settings.arguments none) := by
  have hflags := parseFrom_flags settings.foldlM_setFlag?_flags []
  rw [List.append_nil] at hflags
  rw [parse, hflags, parseFrom]

/-- Behind a bare `--`, whatever is not empty is a file. -/
theorem parse_flags_append {path : String} (hpath : path ≠ "") :
    parse (settings.flags.map Flag.text ++ ["--", path]) =
      .run (settings.arguments (some path)) := by
  have hbare : "--".toList = ['-', '-'] := by decide
  rw [parse, parseFrom_flags settings.foldlM_setFlag?_flags, parseFrom, hbare]
  simp only [parseFiles, setFile?, arguments, Option.isSome_none, Bool.false_or, decide_eq_true_eq,
    if_neg hpath]

variable {settings} in
theorem settings_arguments (h : settings.coloured = false) (file? : Option String) :
    (settings.arguments file?).settings false = settings := by
  obtain ⟨options, json, coloured⟩ := settings
  cases h
  rfl

end Settings

end ArithVM
