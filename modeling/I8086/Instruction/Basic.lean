import I8086.Instruction.Operation
import I8086.Instruction.Register

/-!
# Instructions

Operands, modifiers and the instruction record that decoding produces and that listings and the
machine consume.
-/

set_option autoImplicit false

namespace I8086

/-- A memory operand: the sum of `base` and `displacement` is an offset into `segment`. -/
structure MemoryOperand where
  segment : Register
  base : Base
  displacement : Int16
  deriving DecidableEq, Repr

inductive Operand
  | register (part : RegisterPart)
  | memory (place : MemoryOperand)
  /-- A constant, after sign extension if there was any. -/
  | immediate (value : UInt32)
  /-- A distance from the first byte of the instruction that carries it. -/
  | relative (distance : Int32)
  deriving DecidableEq, Repr

/-- The three operand slots of an instruction. -/
structure Operands where
  first : Option Operand
  second : Option Operand
  third : Option Operand
  deriving DecidableEq, Repr

namespace Operands

def empty : Operands := ⟨none, none, none⟩

/-- The operands of the slots in use, in order. -/
def toList (o : Operands) : List Operand :=
  [o.first, o.second, o.third].filterMap id

/-- Fills the first free slot; `none` if there is none. -/
def place? (o : Operands) (x : Operand) : Option Operands :=
  match o with
  | ⟨none, b, c⟩ => some ⟨some x, b, c⟩
  | ⟨some a, none, c⟩ => some ⟨some a, some x, c⟩
  | ⟨some a, some b, none⟩ => some ⟨some a, some b, some x⟩
  | ⟨some _, some _, some _⟩ => none

def map (f : Operand → Operand) (o : Operands) : Operands :=
  ⟨o.first.map f, o.second.map f, o.third.map f⟩

/-- Exchanges the first two slots. -/
def swap (o : Operands) : Operands := ⟨o.second, o.first, o.third⟩

end Operands

/-- A set of modifiers: the prefixes in front of an instruction, and its operand size. -/
structure Modifiers where
  bits : UInt16
  deriving DecidableEq, Repr

namespace Modifiers

def none : Modifiers := ⟨0⟩
def lock : Modifiers := ⟨1⟩
def repeated : Modifiers := ⟨2⟩
/-- Set together with `repeated` if the repetition goes on while the operands differ. -/
def whileNotZero : Modifiers := ⟨4⟩
/-- A prefix named the segment. -/
def segment : Modifiers := ⟨8⟩
def wide : Modifiers := ⟨16⟩
def far : Modifiers := ⟨32⟩

/-- All of `wanted` are in the set. -/
def has (m wanted : Modifiers) : Bool :=
  m.bits &&& wanted.bits == wanted.bits

def union (m n : Modifiers) : Modifiers := ⟨m.bits ||| n.bits⟩

def inter (m n : Modifiers) : Modifiers := ⟨m.bits &&& n.bits⟩

/-- The whole set if `p` holds, and nothing otherwise. -/
def when (p : Bool) (m : Modifiers) : Modifiers :=
  if p then m else none

end Modifiers

structure Instruction where
  /-- The physical address of the first byte. -/
  address : UInt32
  /-- The number of bytes. -/
  size : UInt32
  operation : Operation
  modifiers : Modifiers
  operands : Operands
  deriving DecidableEq, Repr

namespace Instruction

/-- The instruction that stands for "nothing was decoded". -/
def empty : Instruction := ⟨0, 0, .blank, .none, .empty⟩

def isPrefix (i : Instruction) : Bool :=
  i.operation.isPrefix

/-- The first memory operand. -/
def memory? (i : Instruction) : Option MemoryOperand :=
  i.operands.toList.findSome? fun
    | .memory place => some place
    | _ => Option.none

end Instruction
end I8086
