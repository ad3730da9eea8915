import I8086.Decode.Basic
import I8086.Listing.Render
import I8086.Machine.Registers

/-!
# Executing an instruction

A machine has registers, memory and the prefixes that wait for the next instruction. It executes
`mov`, `add`, `sub`, `cmp`, the relative jumps and the loops; `nop` and `hlt` change nothing here.
Execution that fails reports why together with the machine as it was left.
-/

set_option autoImplicit false

namespace I8086

structure Machine where
  registers : Registers
  image : Image
  pending : Pending
  /-- The program lies at the offsets below `size` of the code segment. -/
  size : UInt32
  /-- How many instructions a run may execute; there is no limit unless it is positive. -/
  maxSteps : Int

/-- An instruction that the machine does not execute. -/
inductive Unsupported
  | operation (i : Instruction)
  /-- A jump to an address instead of by a distance. -/
  | indirectJump (i : Instruction)
  /-- A destination that cannot be written. -/
  | destination (operand : Option Operand)
  deriving DecidableEq, Repr

def Unsupported.message : Unsupported → String
  | operation i => "unsupported instruction: " ++ i.render
  | indirectJump i =>
    "unsupported instruction: only relative jumps are executed (" ++ i.render ++ ")"
  | destination operand => "unsupported instruction: can't write to " ++ Operand.kindName operand

/-- Why an instruction was not executed. -/
inductive ExecuteFailure
  | unsupported (u : Unsupported)
  | fault (f : Fault)
  deriving DecidableEq, Repr

/-- Whether the condition of a jump holds; `none` for operations that are not conditional jumps. -/
def Operation.condition? (op : Operation) (flags : UInt16) : Option Bool :=
  let carry := Flags.has flags Flags.carry
  let zero := Flags.has flags Flags.zero
  let sign := Flags.has flags Flags.sign
  let parity := Flags.has flags Flags.parity
  let overflow := Flags.has flags Flags.overflow
  match op with
  | .je => some zero
  | .jne => some !zero
  | .jb => some carry
  | .jnb => some !carry
  | .js => some sign
  | .jns => some !sign
  | .jp => some parity
  | .jnp => some !parity
  | .jl => some (sign != overflow)
  | .jnl => some (sign == overflow)
  | .jle => some (zero || sign != overflow)
  | .jg => some (!zero && sign == overflow)
  | .jbe => some (carry || zero)
  | .ja => some (!carry && !zero)
  | .jo => some overflow
  | .jno => some !overflow
  | _ => none

namespace Machine

/-- How many instructions a run executes unless it is told otherwise. -/
def defaultMaxSteps : Int := 65536

/-- A machine for the first `size` bytes of an image. -/
def new (image : Image) (size : UInt32) : Machine :=
  ⟨.zero, image, .clear, size, defaultMaxSteps⟩

def ip (m : Machine) : UInt16 := m.registers.word .ip

def setIp (m : Machine) (v : UInt16) : Machine :=
  { m with registers := m.registers.setWord .ip v }

/-- Whether `ip` left the program. -/
def done (m : Machine) : Bool :=
  m.ip.toUInt32 ≥ m.size

/-! ## Operands -/

/-- The width of an operation in bytes: a destination register decides, and otherwise the
instruction. -/
def width (i : Instruction) (destination : Option Operand) : UInt8 :=
  match destination with
  | some (.register part) => part.count
  | _ => if i.modifiers.has .wide then 2 else 1

/-- The contribution of a register to the offset of a memory operand. -/
def term (m : Machine) (x : Register) : UInt16 :=
  if x = .blank then 0 else m.registers.word x

/-- The offset of a memory operand inside its segment. -/
def offsetOf (m : Machine) (place : MemoryOperand) : UInt16 :=
  let (first, second) := place.base.terms
  place.displacement.toUInt16 + m.term first + m.term second

/-- The physical address of a memory operand. -/
def addressOf (m : Machine) (place : MemoryOperand) : Except Fault Address :=
  if place.base.isNamed && place.segment.isNamed then
    .ok (Address.ofSegment (m.registers.word place.segment) (m.offsetOf place) 0)
  else .error .unknownCode

/-- The value of an operand of `i`. -/
def read (m : Machine) (i : Instruction) (operand : Option Operand) (width : UInt8) :
    Except Fault UInt32 :=
  match operand with
  | some (.register part) => (m.registers.get? part).map UInt16.toUInt32
  | some (.memory place) =>
    (m.addressOf place).map fun a =>
      if width = 2 then (m.image.getWord a).toUInt32 else (m.image.get a).toUInt32
  | some (.immediate value) => .ok (value &&& Flags.widthMask width)
  | _ => .error (.unreadable i.operation operand)

/-! ## Operations -/

/-- What execution did: it may have failed, and leaves a machine in any case. -/
abbrev Outcome := Option ExecuteFailure × Machine

/-- Stores a value. -/
def write (m : Machine) (operand : Option Operand) (width : UInt8) (value : UInt32) : Outcome :=
  match operand with
  | some (.register part) =>
    match m.registers.set? part value.toUInt16 with
    | .ok registers => (none, { m with registers })
    | .error f => (some (.fault f), m)
  | some (.memory place) =>
    match m.addressOf place with
    | .ok a =>
      if width = 2 then (none, { m with image := m.image.setWord a value.toUInt16 })
      else (none, { m with image := m.image.set a value.toUInt8 })
    | .error f => (some (.fault f), m)
  | _ => (some (.unsupported (.destination operand)), m)

/-- Moves `ip` to the target of `i`, which stands at `ip`, if the jump is taken. -/
def jump (m : Machine) (i : Instruction) (ip : UInt16) (taken : Bool) : Outcome :=
  if taken then
    match i.operands.first with
    | some (.relative distance) => (none, m.setIp (ip + distance.toUInt32.toUInt16))
    | _ => (some (.fault (.noTarget i.operation)), m)
  else (none, m)

def move (m : Machine) (i : Instruction) : Outcome :=
  let width := width i i.operands.first
  match m.read i i.operands.second width with
  | .error f => (some (.fault f), m)
  | .ok value => m.write i.operands.first width value

/-- Addition and subtraction. The flags are set before the result is stored. -/
def arithmetic (m : Machine) (i : Instruction) (subtract store : Bool) : Outcome :=
  let width := width i i.operands.first
  match m.read i i.operands.first width with
  | .error f => (some (.fault f), m)
  | .ok a =>
    match m.read i i.operands.second width with
    | .error f => (some (.fault f), m)
    | .ok b =>
      let result := if subtract then a - b else a + b
      let flags := Flags.ofOperands m.registers.flags a b result width subtract
      let m := { m with registers := m.registers.setFlags flags }
      if store then m.write i.operands.first width (result &&& Flags.widthMask width)
      else (none, m)

/-- Counts `cx` down and jumps unless it reached zero or `holds` is false. -/
def countDown (m : Machine) (i : Instruction) (ip : UInt16) (holds : Bool) : Outcome :=
  let count := m.registers.word .c - 1
  let m := { m with registers := m.registers.setWord .c count }
  m.jump i ip (count != 0 && holds)

/-- Refuses an instruction; the message needs its text. -/
def refuse (m : Machine) (i : Instruction) (u : Unsupported) : Outcome :=
  if i.isRenderable then (some (.unsupported u), m) else (some (.fault .unknownCode), m)

/-- Executes an instruction whose first byte is at offset `ip`. -/
def execute (m : Machine) (i : Instruction) (ip : UInt16) : Outcome :=
  match i.operation with
  | .mov => m.move i
  | .add => m.arithmetic i false true
  | .sub => m.arithmetic i true true
  | .cmp => m.arithmetic i true false
  | .jmp =>
    match i.operands.first with
    | some (.relative _) => m.jump i ip true
    | _ => m.refuse i (.indirectJump i)
  | .jcxz => m.jump i ip (m.registers.word .c == 0)
  | .loop => m.countDown i ip true
  | .loopz => m.countDown i ip (m.registers.hasFlag Flags.zero)
  | .loopnz => m.countDown i ip (!m.registers.hasFlag Flags.zero)
  | .nop | .hlt => (none, m)
  | op =>
    match op.condition? m.registers.flags with
    | some taken => m.jump i ip taken
    | none => m.refuse i (.operation i)

end Machine
end I8086
