import I8086.CommandLine.Session
import I8086.Source.Xz.Stream

/-!
# The program

Lists or executes the files that are named on the command line.
-/

set_option autoImplicit false

namespace I8086

/-- What the operating system says about an error. -/
def systemMessage : IO.Error → String
  | .alreadyExists _ _ details | .resourceBusy _ details | .resourceVanished _ details
  | .unsupportedOperation _ details | .hardwareFault _ details | .unsatisfiedConstraints _ details
  | .illegalOperation _ details | .protocolError _ details | .timeExpired _ details
  | .interrupted _ _ details | .noFileOrDirectory _ _ details | .invalidArgument _ _ details
  | .permissionDenied _ _ details | .resourceExhausted _ _ details
  | .inappropriateType _ _ details | .noSuchThing _ _ details | .otherError _ details =>
    details.decapitalize
  | .unexpectedEof => ReadError.earlyEnd.message
  | .userError message => message

def openErrorOf (e : IO.Error) : OpenError :=
  ⟨systemMessage e, e matches .noFileOrDirectory ..⟩

/-- Reads a file to its end, or as far as that is possible. -/
def readAll (name : String) (handle : IO.FS.Handle) : IO Source := do
  let mut bytes := #[]
  repeat
    match ← (handle.read 65536).toBaseIO with
    | .error e =>
      return ⟨bytes.toList, some ⟨"read " ++ name ++ ": " ++ systemMessage e, false, false⟩⟩
    | .ok chunk =>
      if chunk.isEmpty then break
      bytes := bytes ++ chunk.data
  return .ofBytes bytes.toList

/-- Opens a file and reads it. -/
def openFile (name : String) : IO (Except OpenError Source) := do
  match ← (IO.FS.Handle.mk name .read).toBaseIO with
  | .error e => return .error (openErrorOf e)
  | .ok handle => return .ok (← readAll name handle)

/-- More instructions than any computer executes. -/
def endlessFuel : Nat := 4611686018427387904

end I8086

open I8086 in
def main (arguments : List String) : IO UInt32 := do
  let stdout ← IO.getStdout
  let annotate ← stdout.isTty
  let opened ← arguments.mapM fun name => do return (name, ← openFile name)
  let files (name : String) : Except OpenError Source :=
    (opened.lookup name).getD (.error ⟨"no such file or directory", true⟩)
  match Session.start Xz.unpack .inTurn annotate endlessFuel files .unlimited arguments with
  | none =>
    -- A program that is executed has no end, and the session waits for it.
    repeat IO.sleep 1000
    return 1
  | some session =>
    stdout.putStr session.stdout.text
    (← IO.getStderr).putStr session.stderr
    match session.error with
    | none => return 0
    | some e =>
      IO.eprintln e.message
      return 1
