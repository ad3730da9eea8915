import I8086.Fault

/-!
# Assembly text

Instructions in the syntax of the assembler `nasm`. `render` gives every instruction a text;
`text` refuses those whose operands cannot be written, which decoding never produces.
-/

set_option autoImplicit false

namespace I8086

open Text

/-- A constant. One of more than sixteen bits was sign extended and is written with its sign. -/
def renderImmediate (value : UInt32) : String :=
  if value > 0xffff then signed value.toInt32.toInt else decimal value.toNat

/-- The words that tell the assembler the size of a memory operand, which only a register in front
can make superfluous. -/
def sizeWords (i : Instruction) (first : Option Operand) : String :=
  if i.modifiers.has .far then "far "
  else
    match first, i.operation with
    | some (.register _), _ => ""
    | _, .esc => ""
    | _, _ => if i.modifiers.has .wide then "word " else "byte "

/-- The distance that is added to the register expression of a memory operand. -/
def renderDisplacement (displacement : Int) : String :=
  if displacement < 0 then " - " ++ decimal displacement.natAbs
  else if displacement > 0 then " + " ++ decimal displacement.natAbs
  else ""

/-- A memory operand between its brackets. -/
def renderPlace (overridden : Bool) (place : MemoryOperand) : String :=
  let segment := if overridden then place.segment.name ++ ":" else ""
  let expression := match place.base with
    | .direct => decimal place.displacement.toUInt16.toNat
    | base => base.equation ++ renderDisplacement place.displacement.toInt
  "[" ++ segment ++ expression ++ "]"

/-- An operand of `i`, whose first operand in writing order is `first`. -/
def renderOperand (i : Instruction) (first : Option Operand) : Operand → String
  | .register part => part.name
  | .memory place => sizeWords i first ++ renderPlace (i.modifiers.has .segment) place
  | .immediate value => renderImmediate value
  | .relative distance => "$" ++ plusSigned distance.toInt

/-- The repeat prefix; comparing operations name the condition under which it goes on. -/
def repeatPrefix (i : Instruction) : String :=
  if i.modifiers.has .whileNotZero then "repnz"
  else match i.operation with
    | .cmps | .scas => "repz"
    | _ => "rep"

namespace Instruction

/-- The prefixes, the mnemonic and its size letter. -/
def renderHead (i : Instruction) : String :=
  (if i.modifiers.has .lock then "lock " else "") ++
  (if i.modifiers.has .repeated then repeatPrefix i ++ " " else "") ++
  i.operation.mnemonic ++
  (if i.operation.isString then if i.modifiers.has .wide then "w" else "b" else "")

/-- The segment and offset of a jump into another segment. -/
def farPointer? (i : Instruction) : Option (UInt32 × UInt32) :=
  if i.modifiers.has .far then
    match i.operands.first, i.operands.second with
    | some (.immediate segment), some (.immediate offset) => some (segment, offset)
    | _, _ => none
  else none

/-- The operands in writing order: the assembler takes a locked `xchg` only with the memory operand
in front. -/
def writtenOperands (i : Instruction) : Operands :=
  if i.modifiers.has .lock && i.operation == .xchg then i.operands.swap else i.operands

/-- The text of an instruction. -/
def render (i : Instruction) : String :=
  match i.farPointer? with
  | some (segment, offset) =>
    i.renderHead ++ " " ++ decimal segment.toNat ++ ":" ++ decimal offset.toNat
  | none =>
    let operands := i.writtenOperands
    match operands.toList.map (renderOperand i operands.first) with
    | [] => i.renderHead
    | written => i.renderHead ++ " " ++ ", ".intercalate written

/-- Whether every operand that is written has a text. -/
def isRenderable (i : Instruction) : Bool :=
  i.farPointer?.isSome || i.operands.toList.all fun
    | .memory place => place.base.isNamed
    | _ => true

/-- `render`, for instructions that were not decoded. -/
def text (i : Instruction) : Except Fault String :=
  if i.isRenderable then .ok i.render else .error .unknownCode

end Instruction
end I8086
