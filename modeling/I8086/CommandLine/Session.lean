import I8086.CommandLine.Options
import I8086.Listing.Labels
import I8086.Machine.Run
import I8086.Memory.Load

/-!
# A session on the command line

Lists or executes the files that are named, each in a memory of its own, and writes the results in
the order of the arguments. A file that fails does not keep the others from being processed.

The files are processed at the same time and come to their ends in any order. Each of them has a
buffer for its output and one for its failure, and the session waits for all of them. It does not
end if a program that is executed does not.
-/

set_option autoImplicit false

namespace I8086

/-- Why a file failed. -/
inductive FileFailure
  | load (name : String) (e : FileError)
  | listing (name : String) (e : Listing.Failure)
  | labels (name : String) (e : DecodeError)
  | run (name : String) (e : RunError)
  | fault (name : String) (f : Fault)
  deriving DecidableEq, Repr

def FileFailure.message : FileFailure → String
  | load name e => "Failed to read the file " ++ name ++ ". Error = " ++ e.message
  | listing name e => name ++ ": " ++ e.message?.getD ""
  | labels name e => name ++ ": " ++ e.message
  | run name e => name ++ ": " ++ e.message
  | fault name f => name ++ ": " ++ f.message?.getD ""

/-- What a file contributes: its output, and why it failed if it did. -/
structure Report where
  output : String
  failure : Option FileFailure
  deriving DecidableEq, Repr

/-- An order in which tasks come to their ends, for any number of them. -/
structure Schedule where
  order : (n : Nat) → List (Fin n)
  perm : ∀ n, (order n).Perm (List.finRange n)

/-- One task after the other. -/
def Schedule.inTurn : Schedule := ⟨List.finRange, fun _ => .refl _⟩

/-- What `n` files have contributed so far, each at a place of its own. -/
structure Buffers (n : Nat) where
  outputs : Vector String n
  failures : Vector (Option FileFailure) n

namespace Buffers

variable {n : Nat}

def empty (n : Nat) : Buffers n := ⟨.replicate n "", .replicate n none⟩

/-- Puts a report into its place. -/
def put (b : Buffers n) (i : Fin n) (r : Report) : Buffers n :=
  ⟨b.outputs.set i r.output, b.failures.set i r.failure⟩

/-- A task comes to its end, if it has one. -/
def settle (task : Fin n → Option Report) (b : Buffers n) (i : Fin n) : Option (Buffers n) :=
  (task i).map (b.put i)

/-- The reports in the order of their places. -/
def reports (b : Buffers n) : List Report :=
  (b.outputs.zipWith Report.mk b.failures).toList

end Buffers

/-- Why a session failed. -/
inductive SessionError
  | options (e : OptionError)
  | noFiles
  | missing (name : String)
  | write (e : WriteError)
  | failures (failed total : Nat)
  deriving DecidableEq, Repr

def SessionError.message : SessionError → String
  | options e => e.message
  | noFiles => "invalid number of arguments, expected at least one for the filename"
  | missing name => "The specified file " ++ name ++ " doesn't exist"
  | write e => "failed to write the output: " ++ e.message
  | failures failed total =>
    Text.decimal failed ++ " of " ++ Text.decimal total ++ " files failed"

/-- Everything a session leaves behind. -/
structure Session where
  stdout : Output
  stderr : String
  error : Option SessionError
  deriving DecidableEq, Repr

namespace Session

/-- How the run of a file ended, and whether that is a failure; `none` if it has no end, or none
within its fuel. -/
def runEnd? (name : String) : RunResult → Option (Option FileFailure)
  | .finished => some none
  | .failed e => some (some (.run name e))
  | .fault f => some (some (.fault name f))
  | .endless | .starved => none

/-- Executes a program: its trace, an empty line and the registers. -/
def execute (name : String) (maxSteps : Int) (fuel : Nat) (image : Image) (count : UInt32) :
    Option Report :=
  let (result, m, trace) :=
    ({ Machine.new image count with maxSteps }).run fuel (some .unlimited)
  let traced := (trace.map Output.text).getD ""
  (runEnd? name result).map fun failure =>
    ⟨Listing.header name ++ traced ++ "\n" ++ m.registers.dump, failure⟩

/-- Lists a program with labels. -/
def listLabeled (name : String) (image : Image) (count : UInt32) : Report :=
  let (e, d) := (Decoder.new image ⟨0, 0⟩ count).decodeAll
  let (_, o) := Labels.write .unlimited d.decoded.toList
  ⟨Listing.header name ++ o.text, e.map (.labels name)⟩

/-- Lists a program. -/
def list (name : String) (annotate : Bool) (image : Image) (count : UInt32) : Report :=
  let (e, o) :=
    (Listing.new (some image) annotate).writeAll (Decoder.new image ⟨0, 0⟩ count) .unlimited
  ⟨Listing.header name ++ o.text, e.map (.listing name)⟩

/-- Processes one file; `none` if it is executed and does not end. -/
def process (unpack : Unpacker) (o : Options) (fuel : Nat) (name : String)
    (file : Except OpenError Source) : Option Report :=
  match Image.zero.loadFile unpack name file 0 with
  | (_, _, some e) => some ⟨"", some (.load name e)⟩
  | (count, image, none) =>
    if o.exec then execute name o.maxSteps fuel image count
    else if o.labels then some (listLabeled name image count)
    else some (list name o.annotate image count)

/-- The reports of all tasks, which come to their ends as scheduled; `none` if one of them has no
end. -/
def collect (schedule : Schedule) {n : Nat} (task : Fin n → Option Report) : Option (List Report) :=
  ((schedule.order n).foldlM (Buffers.settle task) (.empty n)).map Buffers.reports

/-- Writes reports in order. Empty outputs are not written, and nothing is written or logged after a
refused write. Gives the number of failures. -/
def writeReports (stdout : Output) (log : String) (failed : Nat) :
    List Report → Output × String × Except WriteError Nat
  | [] => (stdout, log, .ok failed)
  | report :: rest =>
    let written := if report.output.isEmpty then (none, stdout) else stdout.write report.output
    match written with
    | (some e, stdout) => (stdout, log, .error e)
    | (none, stdout) =>
      match report.failure with
      | none => writeReports stdout log failed rest
      | some failure =>
        writeReports stdout (log ++ "sim86: " ++ failure.message ++ "\n") (failed + 1) rest

/-- Whether a file is there; one that exists and cannot be opened is. -/
def isFound : Except OpenError Source → Bool
  | .error e => !e.isMissing
  | .ok _ => true

/-- Writes the reports on `total` files and counts the failures among them. -/
def finish (stdout : Output) (total : Nat) (reports : List Report) : Session :=
  match writeReports stdout "" 0 reports with
  | (stdout, log, .error e) => ⟨stdout, log, some (.write e)⟩
  | (stdout, log, .ok 0) => ⟨stdout, log, none⟩
  | (stdout, log, .ok failed) => ⟨stdout, log, some (.failures failed total)⟩

/-- Processes all files. -/
def processAll (unpack : Unpacker) (schedule : Schedule) (o : Options) (fuel : Nat)
    (files : String → Except OpenError Source) (stdout : Output) (names : List String) :
    Option Session :=
  match names.find? fun name => !isFound (files name) with
  | some name => some ⟨stdout, "", some (.missing name)⟩
  | none =>
    let task (i : Fin names.length) := process unpack o fuel (names.get i) (files (names.get i))
    (collect schedule task).map (finish stdout names.length)

/-- Runs the program with the given arguments. `files` says what each file name leads to, and
`fuel` bounds executions without a step limit. -/
def start (unpack : Unpacker) (schedule : Schedule) (annotate : Bool) (fuel : Nat)
    (files : String → Except OpenError Source) (stdout : Output) (arguments : List String) :
    Option Session :=
  match (Options.default annotate).parse arguments with
  | .error .help => some ⟨stdout, Options.usage annotate, some (.options .help)⟩
  | .error e => some ⟨stdout, e.message ++ "\n" ++ Options.usage annotate, some (.options e)⟩
  | .ok (_, []) => some ⟨stdout, Options.usage annotate, some .noFiles⟩
  | .ok (o, names) => processAll unpack schedule o fuel files stdout names

end Session
end I8086
