import I8086.Memory.Image
import I8086.Source.Basic

/-!
# Loading programs

A program comes from a source and is placed into the image as far as it fits. A packed program goes
through an unpacker, which is told by its first bytes. What arrived before a failure stays in the
image and is counted.
-/

set_option autoImplicit false

namespace I8086

inductive LoadError
  /-- There is no such place in the image. -/
  | offset (n : UInt32)
  /-- The source failed before it was known whether the program is packed. -/
  | header (e : ReadError)
  /-- A packed program that cannot be opened. -/
  | container (e : ReadError)
  /-- The source of the program failed. -/
  | read (e : ReadError)
  deriving DecidableEq, Repr

def LoadError.message : LoadError → String
  | offset n => "the load offset 0x" ++ Text.hex n.toNat ++ " is outside of the memory image"
  | header e => "failed to read the program header: " ++ e.message
  | container e => "failed to open the xz stream: " ++ e.message
  | read e => "failed to load the program: " ++ e.message

/-- Why the first bytes of a program cannot be looked at: the source fails before it has delivered
them. A failure because of an end is as good as the end. -/
def Source.headFailure? (s : Source) : Option ReadError :=
  if (s.bytes.take packedMagic.length).length < packedMagic.length then
    s.failure.filter fun e => !e.isEnd
  else none

/-- Whether a failure is taken for the end of a program that is smaller than the memory. -/
def ReadError.endsProgram (e : ReadError) : Bool := e.isEnd || e.isEarlyEnd

/-- What loading did. -/
structure Loaded where
  /-- How many bytes were placed. -/
  count : UInt32
  image : Image
  error : Option LoadError

namespace Image

/-- Places what a source delivers at `start`. Nothing is asked of the source once the image is full,
so what would have gone wrong after that does not count. -/
def place (m : Image) (start : Nat) (s : Source) : Loaded :=
  let room := imageSize - start
  ⟨UInt32.ofNat (min s.bytes.length room), m.setRange start s.bytes,
    if room ≤ s.bytes.length then none
    else (s.failure.filter fun e => !e.endsProgram).map .read⟩

/-- Loads a program at `offset`. -/
def load (m : Image) (unpack : Unpacker) (s : Source) (offset : UInt32) : Loaded :=
  if imageSize ≤ offset.toNat then ⟨0, m, some (.offset offset)⟩
  else
    match s.headFailure? with
    | some e => ⟨0, m, some (.header e)⟩
    | none =>
      if s.bytes.take packedMagic.length = packedMagic then
        match unpack s with
        | .error e => ⟨0, m, some (.container e)⟩
        | .ok s => m.place offset.toNat s
      else m.place offset.toNat s

end Image

/-- Why a file was not loaded. -/
inductive FileError
  | cannotOpen (name : String) (e : OpenError)
  | cannotLoad (name : String) (e : LoadError)
  deriving DecidableEq, Repr

def FileError.message : FileError → String
  | cannotOpen name e =>
    "failed to open the file " ++ name ++ ": open " ++ name ++ ": " ++ e.message
  | cannotLoad name e => name ++ ": " ++ e.message

namespace Image

/-- Loads the file of the given name, which was opened or not, at `offset`. -/
def loadFile (m : Image) (unpack : Unpacker) (name : String) (file : Except OpenError Source)
    (offset : UInt32) : UInt32 × Image × Option FileError :=
  match file with
  | .error e => (0, m, some (.cannotOpen name e))
  | .ok s =>
    let loaded := m.load unpack s offset
    (loaded.count, loaded.image, loaded.error.map (.cannotLoad name))

end Image
end I8086
