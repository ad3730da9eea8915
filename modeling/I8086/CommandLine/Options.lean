import I8086.Machine.Execute
import I8086.Text.Integer

/-!
# Options of the command line

Options stand in front of the file names and start with one or two dashes. A switch may be given a
value behind an equals sign; the step limit takes one there or from the next argument. The options
end at the first argument that is none, at a single dash, or behind two dashes.
-/

set_option autoImplicit false

namespace I8086

structure Options where
  /-- Execute the program instead of listing it. -/
  exec : Bool
  /-- Annotate the lines of a listing. -/
  annotate : Bool
  /-- List with labels. -/
  labels : Bool
  maxSteps : Int
  deriving DecidableEq, Repr

/-- What is wrong with the options. -/
inductive OptionError
  | badSyntax (argument : String)
  | undefined (name : String)
  | needsArgument (name : String)
  | invalidSwitch (value name : String)
  | invalidNumber (value name : String) (e : Text.IntegerError)
  /-- Nothing is wrong, but only help was asked for. -/
  | help
  deriving DecidableEq, Repr

def OptionError.message : OptionError → String
  | badSyntax argument => "bad flag syntax: " ++ argument
  | undefined name => "flag provided but not defined: -" ++ name
  | needsArgument name => "flag needs an argument: -" ++ name
  | invalidSwitch value name =>
    "invalid boolean value " ++ Text.quote value ++ " for -" ++ name ++ ": parse error"
  | invalidNumber value name e =>
    "invalid value " ++ Text.quote value ++ " for flag -" ++ name ++ ": " ++ e.message
  | help => "flag: help requested"

namespace Options

/-- The options that hold unless they are given; annotations are up to the caller. -/
def default (annotate : Bool) : Options :=
  ⟨false, annotate, false, Machine.defaultMaxSteps⟩

/-- The spellings of truth values. -/
def truthValue? : String → Option Bool
  | "1" | "t" | "T" | "TRUE" | "true" | "True" => some true
  | "0" | "f" | "F" | "FALSE" | "false" | "False" => some false
  | _ => none

/-- Changes one switch, if there is one of that name. -/
def setSwitch? (o : Options) (name : String) (value : Bool) : Option Options :=
  match name with
  | "exec" => some { o with exec := value }
  | "annotate" => some { o with annotate := value }
  | "labels" => some { o with labels := value }
  | _ => none

/-- An argument, taken apart. -/
inductive Argument
  /-- The first file name. -/
  | plain
  /-- Two dashes, which end the options. -/
  | terminator
  | malformed
  | option (name : String) (value : Option String)

/-- The name of an option and the value behind its first equals sign. -/
def splitValue (name : List Char) : Argument :=
  match name.dropWhile (· != '=') with
  | [] => .option (String.ofList name) none
  | _ :: value =>
    .option (String.ofList (name.takeWhile (· != '='))) (some (String.ofList value))

/-- Takes an argument apart. A name is not empty and starts with neither a dash nor an equals
sign. -/
def classify (argument : String) : Argument :=
  let named (name : List Char) : Argument :=
    match name with
    | [] | '-' :: _ | '=' :: _ => .malformed
    | _ => splitValue name
  match argument.toList with
  | ['-', '-'] => .terminator
  | '-' :: '-' :: name => named name
  | '-' :: c :: name => named (c :: name)
  | _ => .plain

/-- Sets the step limit. -/
def setLimit (o : Options) (value : String) : Except OptionError Options :=
  match Text.readInteger value with
  | .ok n => .ok { o with maxSteps := n }
  | .error e => .error (.invalidNumber value "max-steps" e)

/-- Sets a switch, which is on if no value is given. -/
def setSwitch (o : Options) (name : String) (value : Option String) :
    Except OptionError Options :=
  let given := value.getD "true"
  match o.setSwitch? name false, truthValue? given with
  | none, _ => .error (if name = "help" || name = "h" then .help else .undefined name)
  | some _, none => .error (.invalidSwitch given name)
  | some _, some b => .ok ((o.setSwitch? name b).getD o)

/-- Reads the options; gives the arguments behind them as well. -/
def parse (o : Options) : List String → Except OptionError (Options × List String)
  | [] => .ok (o, [])
  | argument :: rest =>
    match classify argument with
    | .plain => .ok (o, argument :: rest)
    | .terminator => .ok (o, rest)
    | .malformed => .error (.badSyntax argument)
    | .option "max-steps" value =>
      match value, rest with
      | some value, rest => do
        let o ← o.setLimit value
        parse o rest
      | none, value :: rest => do
        let o ← o.setLimit value
        parse o rest
      | none, [] => .error (.needsArgument "max-steps")
    | .option name value => do
      let o ← o.setSwitch name value
      parse o rest

/-- How the program is used; `annotate` is the default of that option. -/
def usage (annotate : Bool) : String :=
  "Usage: sim86 [-exec] [-annotate | -labels] [-max-steps N] file...\n" ++
  "  -annotate\n" ++
  "    \tappend the address and the bytes of every instruction" ++
    (if annotate then " (default true)" else "") ++ "\n" ++
  "  -exec\n" ++
  "    \texecute the program and print the trace\n" ++
  "  -labels\n" ++
  "    \tpoint the jumps to labels instead of $+n\n" ++
  "  -max-steps int\n" ++
  "    \tstop the execution after N instructions, 0 - no limit (default 65536)\n"

end Options
end I8086
