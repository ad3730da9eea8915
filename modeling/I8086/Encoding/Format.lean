import I8086.Fault

/-!
# Formats

A format describes one encoding of an operation as a sequence of bit fields. A field either takes
its bits from the instruction stream or is implicit and contributes a fixed value.
-/

set_option autoImplicit false

namespace I8086

/-- What the value of a field means. -/
inductive Usage
  /-- The bits have to equal the value of the field. -/
  | literal
  /-- The register operand is the destination. -/
  | d
  /-- A byte of data is sign extended. -/
  | s
  /-- The operands are words. -/
  | w
  /-- The shift count is in `cl`. -/
  | v
  /-- The repetition goes on while the operands are equal. -/
  | z
  | mod | reg | rm | sr
  /-- The opcode of an external device. -/
  | escape
  /-- A displacement follows. -/
  | hasDisp
  /-- The displacement is a word. -/
  | dispAlwaysWide
  /-- Data follows. -/
  | hasData
  /-- The data is a word if the operands are. -/
  | wideData
  /-- The displacement is a jump distance. -/
  | relative
  /-- A register named by `rm` is a word. -/
  | rmAlwaysWide
  | far
  | disp | data
  /-- A code without a meaning. -/
  | other (code : UInt8)
  deriving DecidableEq, Repr

namespace Usage

def named : List Usage :=
  [literal, d, s, w, v, z, mod, reg, rm, sr, escape, hasDisp, dispAlwaysWide, hasData, wideData,
    relative, rmAlwaysWide, far, disp, data]

def ofCode (code : UInt8) : Usage :=
  named[code.toNat]?.getD (other code)

def code : Usage → UInt8
  | other code => code
  | u => u.ctorIdx.toUInt8

def isNamed : Usage → Bool
  | other _ => false
  | _ => true

end Usage

/-- `bits` bits of the stream, or, if `bits` is zero, the implicit `value`. The value is moved
`shift` places up, which joins fields that are split over the stream. -/
structure Field where
  usage : Usage
  bits : UInt8
  shift : UInt8
  value : UInt32
  deriving DecidableEq, Repr

namespace Field

/-- `bits` bits of the stream. -/
def stream (usage : Usage) (bits : UInt8) : Field := ⟨usage, bits, 0, 0⟩

/-- A fixed value that takes no bits. -/
def implicit (usage : Usage) (value : UInt32) : Field := ⟨usage, 0, 0, value⟩

/-- `bits` bits that have to read `value`. -/
def literal (bits : UInt8) (value : UInt32) : Field := ⟨.literal, bits, 0, value⟩

/-- The number that a sequence of binary digits denotes; `none` if another character occurs. -/
def binary? (acc : UInt32) : List Char → Option UInt32
  | [] => some acc
  | '0' :: rest => binary? (acc * 2) rest
  | '1' :: rest => binary? (acc * 2 + 1) rest
  | _ :: _ => none

/-- The literal with the given binary digits, one to eight of them. -/
def ofPattern (pattern : String) : Except Fault Field :=
  let digits := pattern.toList
  if digits.isEmpty || 8 < digits.length then .error (.invalidPattern pattern)
  else match binary? 0 digits with
    | some value => .ok (literal digits.length.toUInt8 value)
    | none => .error (.invalidPattern pattern)

end Field

/-- One encoding of an operation. -/
structure Format where
  operation : Operation
  fields : List Field
  deriving DecidableEq, Repr

end I8086
