import I8086.Fault

/-!
# Output

Where listings and traces go: a sequence of pieces of text, one for each write. An output may
refuse every write after a given number of them.
-/

set_option autoImplicit false

namespace I8086

/-- Why a write was refused, in the words of the output. -/
structure WriteError where
  message : String
  deriving DecidableEq, Repr

/-- The room that an output has left. -/
structure Room where
  /-- How many more writes are accepted. -/
  writes : Nat
  /-- Why others are refused. -/
  refusal : WriteError
  deriving DecidableEq, Repr

structure Output where
  /-- The pieces written so far, in order. -/
  pieces : Array String
  /-- What room is left; everything is accepted if nothing is said about it. -/
  room : Option Room
  deriving DecidableEq, Repr

namespace Output

/-- An output that accepts everything. -/
def unlimited : Output := ⟨#[], none⟩

/-- An output with the given room. -/
def withRoom (room : Option Room) : Output := ⟨#[], room⟩

/-- Everything that was written. -/
def text (o : Output) : String :=
  String.join o.pieces.toList

/-- Writes one piece of text, whole or not at all. -/
def write (o : Output) (piece : String) : Option WriteError × Output :=
  match o.room with
  | none => (none, { o with pieces := o.pieces.push piece })
  | some ⟨0, e⟩ => (some e, o)
  | some ⟨n + 1, e⟩ => (none, { o with pieces := o.pieces.push piece, room := some ⟨n, e⟩ })

/-- Writes a line. -/
def writeLine (o : Output) (line : String) : Option WriteError × Output :=
  o.write (line ++ "\n")

/-- Why the writing of several lines stopped. -/
inductive Stop
  | refused (e : WriteError)
  /-- The next line has no text. -/
  | fault (f : Fault)
  deriving DecidableEq, Repr

/-- Writes lines until one of them has no text or is refused. -/
def writeLines (o : Output) : List (Except Fault String) → Option Stop × Output
  | [] => (none, o)
  | .error f :: _ => (some (.fault f), o)
  | .ok line :: rest =>
    match o.writeLine line with
    | (none, o) => o.writeLines rest
    | (some e, o) => (some (.refused e), o)

end Output
end I8086
