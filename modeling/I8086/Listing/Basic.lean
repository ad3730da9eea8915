import I8086.Decode.Stream
import I8086.Listing.Output
import I8086.Listing.Render

/-!
# Listings

A listing has one line for each instruction, with the prefixes on the line of the instruction they
belong to. It may annotate every line with the address and the bytes of what stands on it.
-/

set_option autoImplicit false

namespace I8086

structure Listing where
  /-- Where the bytes of the annotations come from; without an image there are none. -/
  image : Option Image
  annotate : Bool
  /-- The address of the first prefix that waits for its instruction. -/
  waiting : Option UInt32

namespace Listing

def new (image : Option Image) (annotate : Bool) : Listing :=
  ⟨image, annotate, none⟩

/-- The beginning of a listing that the assembler accepts. -/
def header (name : String) : String :=
  "; " ++ name ++ "\nbits 16\n\n"

/-- Appends the address `start` and `size` bytes of the image to a line. -/
def annotated (image : Image) (start size : UInt32) (line : String) : String :=
  Text.padRight 36 ' ' line ++ " ; 0x" ++ Text.hexPadded 5 start.toNat ++ ": " ++
    Text.hexBytes " " (image.read start size)

/-- The line of an instruction whose first byte, prefixes included, is at `start`. -/
def lineFrom (l : Listing) (start : UInt32) (i : Instruction) : Except Fault String :=
  match l.annotate, l.image with
  | true, some image =>
    i.text.map (annotated image start (Address.ofWord (i.address + i.size - start)).toWord)
  | _, _ => i.text

/-- What an instruction adds to the listing: a prefix waits, any other instruction gives a line. -/
def add (l : Listing) (i : Instruction) : Option (Except Fault String) × Listing :=
  if i.isPrefix then (none, { l with waiting := some (l.waiting.getD i.address) })
  else (some (l.lineFrom (l.waiting.getD i.address) i), { l with waiting := none })

/-- The lines of a sequence of instructions. -/
def lines (l : Listing) : List Instruction → List (Except Fault String)
  | [] => []
  | i :: rest =>
    match l.add i with
    | (none, l) => l.lines rest
    | (some line, l) => line :: l.lines rest

/-- Why a listing ended early. -/
inductive Failure
  | write (e : WriteError)
  | decode (e : DecodeError)
  | fault (f : Fault)
  deriving DecidableEq, Repr

/-- Writes a line for every instruction that is left in a region. The lines in front of a place
that cannot be decoded are still written. -/
def writeAll (l : Listing) (d : Decoder) (o : Output) : Option Failure × Output :=
  let (e, d') := d.decodeAll
  match o.writeLines (l.lines (d'.decoded.toList.drop d.decoded.size)) with
  | (some (.refused e), o) => (some (.write e), o)
  | (some (.fault f), o) => (some (.fault f), o)
  | (none, o) => (e.map .decode, o)

def Failure.message? : Failure → Option String
  | write e => some ("failed to write the listing: " ++ e.message)
  | decode e => some e.message
  | fault f => f.message?

/-- The listing of a whole program, up to the place where decoding fails. -/
def disassemble (program : List UInt8) : Option Failure × String :=
  let d := Decoder.ofProgram program
  let (failure, o) := (new (some d.image) false).writeAll d .unlimited
  (failure, o.text)

end Listing
end I8086
