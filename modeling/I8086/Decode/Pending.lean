import I8086.Fault

/-!
# Pending prefixes

Prefixes are instructions of their own that modify the next one. `Pending` carries them from where
they were decoded to the instruction they belong to, which takes them all at once.
-/

set_option autoImplicit false

namespace I8086

/-- The prefixes that wait for an instruction. -/
structure Pending where
  modifiers : Modifiers
  /-- The segment of the last override; `blank` is read as `ds`. -/
  segment : Register
  deriving DecidableEq, Repr

namespace Pending

/-- Nothing waits. -/
def clear : Pending := ⟨.none, .ds⟩

/-- Nothing waits and no segment was ever named. -/
def blank : Pending := ⟨.none, .blank⟩

/-- Whether a prefix waits. -/
def waits (p : Pending) : Bool :=
  p.modifiers.bits != 0

/-- The segment register of the memory operands of the next instruction. -/
def dataSegment (p : Pending) : Register :=
  if p.segment = .blank then .ds else p.segment

/-- Gives the prefixes to an instruction. -/
def attach (p : Pending) (i : Instruction) : Instruction :=
  { i with
    modifiers := i.modifiers.union p.modifiers
    operands := i.operands.map fun
      | .memory place => .memory { place with segment := p.dataSegment }
      | operand => operand }

/-- What waits after an instruction: a prefix adds itself, and any other instruction has taken
everything. An override that names no register changes nothing. -/
def after (p : Pending) (i : Instruction) : Pending :=
  match i.operation with
  | .lock => { p with modifiers := p.modifiers.union .lock }
  | .rep =>
    { p with
      modifiers := p.modifiers.union (Modifiers.repeated.union (i.modifiers.inter .whileNotZero)) }
  | .segment =>
    match i.operands.first with
    | some (.register part) => ⟨p.modifiers.union .segment, part.register⟩
    | _ => p
  | _ => clear

/-- `after`, for instructions that were not decoded: an override has to name a register. -/
def update (p : Pending) (i : Instruction) : Except Fault Pending :=
  match i.operation, i.operands.first with
  | .segment, some (.register _) => .ok (p.after i)
  | .segment, _ => .error .noSegmentRegister
  | _, _ => .ok (p.after i)

end Pending
end I8086
