import I8086.Encoding.BitReader
import I8086.Encoding.Format

/-!
# Field values

What the fields of a format contribute when it is laid over the stream, and what follows from it:
which displacement and data bytes come after the bit fields, and which operands and modifiers the
instruction has.
-/

set_option autoImplicit false

namespace I8086

/-- Why a format does not give an instruction. -/
inductive Miss
  /-- The format does not describe the bytes. -/
  | mismatch
  /-- It describes the bytes that may be read, but needs more of them. -/
  | truncated
  /-- The format itself is broken. -/
  | fault (f : Fault)
  deriving DecidableEq, Repr

/-- The contributions of the fields of a format, in order. -/
abbrev Fields := List (Usage × UInt32)

namespace Fields

/-- The contributions to `u`, joined bit by bit. -/
def value (f : Fields) (u : Usage) : UInt32 :=
  f.foldl (fun acc entry => if entry.1 = u then acc ||| entry.2 else acc) 0

def present (f : Fields) (u : Usage) : Bool :=
  f.any fun entry => entry.1 = u

def flag (f : Fields) (u : Usage) : Bool :=
  f.value u != 0

/-! ## The bytes after the bit fields -/

/-- `mod = 00` with `r/m = 110` is an address of its own instead of `[bp]`. -/
def hasDirectAddress (f : Fields) : Bool :=
  f.value .mod == 0 && f.value .rm == 6

def hasDisp (f : Fields) : Bool :=
  f.flag .hasDisp || f.value .mod == 1 || f.value .mod == 2 || f.hasDirectAddress

def dispIsWide (f : Fields) : Bool :=
  f.flag .dispAlwaysWide || f.value .mod == 2 || f.hasDirectAddress

def hasData (f : Fields) : Bool :=
  f.flag .hasData

def dataIsWide (f : Fields) : Bool :=
  f.flag .wideData && !f.flag .s && f.flag .w

/-! ## Operands -/

/-- The register that a three bit field names. -/
def registerPart (field : UInt32) (wide : Bool) : RegisterPart :=
  match (field &&& 7).toNat, wide with
  | 0, false => .low .a | 0, true => .whole .a
  | 1, false => .low .c | 1, true => .whole .c
  | 2, false => .low .d | 2, true => .whole .d
  | 3, false => .low .b | 3, true => .whole .b
  | 4, false => .high .a | 4, true => .whole .sp
  | 5, false => .high .c | 5, true => .whole .bp
  | 6, false => .high .d | 6, true => .whole .si
  | _, false => .high .b | _, true => .whole .di

/-- The segment register that a two bit field names. -/
def segmentPart (field : UInt32) : RegisterPart :=
  match (field &&& 3).toNat with
  | 0 => .whole .es
  | 1 => .whole .cs
  | 2 => .whole .ss
  | _ => .whole .ds

/-- The register expression that an `r/m` field names. -/
def baseOf (rm : UInt32) : Base :=
  match (rm &&& 7).toNat with
  | 0 => .bxSi
  | 1 => .bxDi
  | 2 => .bpSi
  | 3 => .bpDi
  | 4 => .si
  | 5 => .di
  | 6 => .bp
  | _ => .bx

def modifiers (f : Fields) : Modifiers :=
  (Modifiers.when (f.flag .w) .wide).union <|
    (Modifiers.when (f.flag .far) .far).union <|
      Modifiers.when (f.present .z && !f.flag .z) .whileNotZero

/-- The operand of a `reg` or `sr` field. -/
def regOperand (f : Fields) : Option Operand :=
  if f.present .sr then some (.register (segmentPart (f.value .sr)))
  else if f.present .reg then some (.register (registerPart (f.value .reg) (f.flag .w)))
  else none

/-- The operand of the `mod` and `r/m` fields. -/
def rmOperand (f : Fields) (displacement : Int16) : Option Operand :=
  if !f.present .mod then none
  else if f.value .mod == 3 then
    some (.register (registerPart (f.value .rm) (f.flag .w || f.flag .rmAlwaysWide)))
  else
    let base := if f.hasDirectAddress then .direct else baseOf (f.value .rm)
    some (.memory ⟨.ds, base, displacement⟩)

/-- The operands that go to the slots which the `reg` and `r/m` operands leave free. -/
def trailing (f : Fields) (displacement : Int16) (data size : UInt32) : List Operand :=
  [if f.present .v then
      some (if f.flag .v then .register (.low .c) else .immediate 1)
    else none,
    if f.present .escape then some (.immediate (f.value .escape)) else none,
    if f.flag .relative then some (.relative (displacement.toInt32 + size.toInt32)) else none,
    if f.hasData then some (.immediate data) else none].filterMap id

/-- Puts operands into the first free slots, one after the other. -/
def placeAll (slots : Operands) : List Operand → Except Miss Operands
  | [] => .ok slots
  | x :: rest =>
    match slots.place? x with
    | some slots => placeAll slots rest
    | none => .error (.fault .tooManyOperands)

/-- The operands of an instruction of `size` bytes. A far pointer is an immediate segment and
offset; otherwise `d` says which of the `reg` and `r/m` operands is the destination. -/
def operands (f : Fields) (disp data size : UInt32) : Except Miss Operands :=
  let displacement := disp.toUInt16.toInt16
  if f.flag .far && !f.present .mod then
    .ok ⟨some (.immediate data), some (.immediate disp.toUInt16.toUInt32), none⟩
  else
    let reg := f.regOperand
    let rm := f.rmOperand displacement
    let slots : Operands := if f.flag .d then ⟨reg, rm, none⟩ else ⟨rm, reg, none⟩
    placeAll slots (f.trailing displacement data size)

end Fields
end I8086
