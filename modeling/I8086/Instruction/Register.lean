/-!
# Registers

The names of the registers, the bytes of a register that an operand selects, and the register
expressions that memory operands are built from.
-/

set_option autoImplicit false

namespace I8086

/-- A register. `blank` stands where no register is meant. -/
inductive Register
  | blank
  | a | b | c | d
  | sp | bp | si | di
  | es | cs | ss | ds
  | ip | flags
  /-- A code without a register. -/
  | other (code : UInt8)
  deriving DecidableEq, Repr

namespace Register

/-- The registers that have a name, in the order of their codes. -/
def named : List Register :=
  [blank, a, b, c, d, sp, bp, si, di, es, cs, ss, ds, ip, flags]

def ofCode (code : UInt8) : Register :=
  named[code.toNat]?.getD (other code)

def code : Register → UInt8
  | other code => code
  | r => r.ctorIdx.toUInt8

def isNamed : Register → Bool
  | other _ => false
  | _ => true

/-- The place of a named register in a register file. -/
def slot? : Register → Option (Fin 15)
  | blank => some 0
  | a => some 1 | b => some 2 | c => some 3 | d => some 4
  | sp => some 5 | bp => some 6 | si => some 7 | di => some 8
  | es => some 9 | cs => some 10 | ss => some 11 | ds => some 12
  | ip => some 13 | flags => some 14
  | other _ => none

theorem getElem?_named_of_slot? {x : Register} {i : Fin 15} (h : x.slot? = some i) :
    named[i.val]? = some x := by
  cases x <;> cases h <;> rfl

theorem eq_of_slot?_eq_some {x y : Register} {i : Fin 15} (hx : x.slot? = some i)
    (hy : y.slot? = some i) : x = y :=
  Option.some.inj ((getElem?_named_of_slot? hx).symm.trans (getElem?_named_of_slot? hy))

/-- The name of the whole register. -/
def name : Register → String
  | blank => ""
  | a => "ax" | b => "bx" | c => "cx" | d => "dx"
  | sp => "sp" | bp => "bp" | si => "si" | di => "di"
  | es => "es" | cs => "cs" | ss => "ss" | ds => "ds"
  | ip => "ip" | flags => "flags"
  | other _ => "unknown"

/-- The name of the low byte, which only the four general registers have. -/
def lowName : Register → String
  | a => "al" | b => "bl" | c => "cl" | d => "dl"
  | r => r.name

/-- The name of the high byte, which only the four general registers have. -/
def highName : Register → String
  | a => "ah" | b => "bh" | c => "ch" | d => "dh"
  | r => r.name

end Register

/-- `count` bytes of a register from byte `offset` on: `al` is `⟨a, 0, 1⟩`, `ah` is `⟨a, 1, 1⟩` and
`ax` is `⟨a, 0, 2⟩`. -/
structure RegisterPart where
  register : Register
  offset : UInt8
  count : UInt8
  deriving DecidableEq, Repr

namespace RegisterPart

def isWide (p : RegisterPart) : Bool :=
  p.count == 2

def name (p : RegisterPart) : String :=
  if p.isWide then p.register.name
  else if p.offset == 1 then p.register.highName
  else p.register.lowName

/-- The whole register. -/
def whole (r : Register) : RegisterPart := ⟨r, 0, 2⟩

/-- The low byte of a register. -/
def low (r : Register) : RegisterPart := ⟨r, 0, 1⟩

/-- The high byte of a register. -/
def high (r : Register) : RegisterPart := ⟨r, 1, 1⟩

end RegisterPart

/-- The register expression of a memory operand; `direct` has none. -/
inductive Base
  | direct
  | bxSi | bxDi | bpSi | bpDi | si | di | bp | bx
  /-- A code without a register expression. -/
  | other (code : UInt8)
  deriving DecidableEq, Repr

namespace Base

def named : List Base :=
  [direct, bxSi, bxDi, bpSi, bpDi, si, di, bp, bx]

def ofCode (code : UInt8) : Base :=
  named[code.toNat]?.getD (other code)

def code : Base → UInt8
  | other code => code
  | b => b.ctorIdx.toUInt8

def isNamed : Base → Bool
  | other _ => false
  | _ => true

/-- The expression as it is written between the brackets of an operand. -/
def equation : Base → String
  | bxSi => "bx + si" | bxDi => "bx + di" | bpSi => "bp + si" | bpDi => "bp + di"
  | si => "si" | di => "di" | bp => "bp" | bx => "bx"
  | direct | other _ => ""

/-- The registers that are summed up; an unused place is `blank`. -/
def terms : Base → Register × Register
  | bxSi => (.b, .si) | bxDi => (.b, .di) | bpSi => (.bp, .si) | bpDi => (.bp, .di)
  | si => (.si, .blank) | di => (.di, .blank) | bp => (.bp, .blank) | bx => (.b, .blank)
  | direct | other _ => (.blank, .blank)

end Base
end I8086
