import I8086.Instruction.Basic
import I8086.Text.Quoted

/-!
# Faults

A fault is a broken precondition of an operation of this library: the caller asked for something
that has no answer. It is kept apart from the errors that bad programs and bad files cause.
-/

set_option autoImplicit false

namespace I8086

inductive Fault
  /-- An address beyond the last byte of the image. -/
  | outsideImage (address : UInt32)
  /-- A field of more bits than a byte has. -/
  | fieldTooWide (width : UInt8)
  /-- A literal that is not one to eight binary digits. -/
  | invalidPattern (pattern : String)
  /-- A format that produces a fourth operand. -/
  | tooManyOperands
  /-- A segment override without a register. -/
  | noSegmentRegister
  /-- An operand without a value, as the source of `operation`. -/
  | unreadable (operation : Operation) (operand : Option Operand)
  /-- A taken jump without a relative operand. -/
  | noTarget (operation : Operation)
  /-- A look-up by a code that names nothing. -/
  | unknownCode
  deriving DecidableEq, Repr

/-- How messages call the kind of an operand. -/
def Operand.kindName : Option Operand → String
  | some (.register _) => "decoder.RegisterAccess"
  | some (.memory _) => "decoder.EffectiveAddress"
  | some (.immediate _) => "decoder.Immediate"
  | some (.relative _) => "decoder.RelativeImmediate"
  | none => "<nil>"

namespace Fault

open Text

/-- The text of a fault; a failed look-up has none. -/
def message? : Fault → Option String
  | outsideImage address =>
    some ("AssertionError: address 0x" ++ hex address.toNat ++ " is outside of the memory image")
  | fieldTooWide width =>
    some ("AssertionError: a field can't be wider than a byte. Got " ++ decimal width.toNat ++
      " bits")
  | invalidPattern pattern =>
    some ("AssertionError: invalid literal pattern " ++ quote pattern)
  | tooManyOperands => some "AssertionError: an instruction can't have more than 3 operands"
  | noSegmentRegister =>
    some "AssertionError: the segment override has to name a segment register"
  | unreadable operation operand =>
    some ("AssertionError: " ++ operation.mnemonic ++ " can't read the operand " ++
      Operand.kindName operand)
  | noTarget operation =>
    some ("AssertionError: " ++ operation.mnemonic ++ " without a relative target")
  | unknownCode => none

end Fault
end I8086
