import I8086.Listing.Output
import I8086.Machine.Flags

/-!
# The register file

One word for each register. Operands select whole registers or single bytes of them, and writing a
byte leaves the other one alone.
-/

set_option autoImplicit false

namespace I8086

structure Registers where
  words : Vector UInt16 15
  deriving DecidableEq

namespace Registers

/-- All registers zero. -/
def zero : Registers := ⟨Vector.replicate 15 0⟩

/-- The word of a register; zero if there is no such register. -/
def word (r : Registers) (x : Register) : UInt16 :=
  match x.slot? with
  | some i => r.words.get i
  | none => 0

/-- Replaces the word of a register, if there is such a register. -/
def setWord (r : Registers) (x : Register) (v : UInt16) : Registers :=
  match x.slot? with
  | some i => ⟨r.words.set i.val v i.isLt⟩
  | none => r

theorem word_setWord_self (r : Registers) {x : Register} (hx : x.isNamed = true) (v : UInt16) :
    (r.setWord x v).word x = v := by
  cases h : x.slot? with
  | none => cases x <;> cases h; cases hx
  | some i =>
    simp only [word, setWord, h]
    exact Vector.getElem_set_self i.isLt

theorem word_setWord_of_ne (r : Registers) {x y : Register} (hxy : x ≠ y) (v : UInt16) :
    (r.setWord x v).word y = r.word y := by
  simp only [word, setWord]
  cases hx : x.slot? with
  | none => rfl
  | some i =>
    cases hy : y.slot? with
    | none => rfl
    | some j =>
      have hij : i.val ≠ j.val := fun h => hxy (Register.eq_of_slot?_eq_some hx (Fin.ext h ▸ hy))
      exact Vector.getElem_set_ne i.isLt j.isLt hij

/-- `v` moved `n` bytes up; nothing is left of it from two bytes on. -/
def bytesUp (v : UInt16) (n : UInt8) : UInt16 :=
  if n < 2 then v <<< (8 * n.toUInt16) else 0

/-- `v` moved `n` bytes down; nothing is left of it from two bytes on. -/
def bytesDown (v : UInt16) (n : UInt8) : UInt16 :=
  if n < 2 then v >>> (8 * n.toUInt16) else 0

/-- The bytes that a part selects, as a number. -/
def get (r : Registers) (part : RegisterPart) : UInt16 :=
  let v := r.word part.register
  if part.isWide then v else bytesDown v part.offset &&& 0xff

/-- Replaces the bytes that a part selects. Writing to the `blank` register has no effect. -/
def set (r : Registers) (part : RegisterPart) (v : UInt16) : Registers :=
  if part.register = .blank then r
  else if part.isWide then r.setWord part.register v
  else
    let kept := r.word part.register &&& ~~~bytesUp 0xff part.offset
    r.setWord part.register (kept ||| bytesUp (v &&& 0xff) part.offset)

/-- The flags word. -/
def flags (r : Registers) : UInt16 := r.word .flags

def setFlags (r : Registers) (v : UInt16) : Registers := r.setWord .flags v

def hasFlag (r : Registers) (wanted : UInt16) : Bool :=
  Flags.has r.flags wanted

/-! ## Access by a code that may name nothing -/

def word? (r : Registers) (x : Register) : Except Fault UInt16 :=
  if x.isNamed then .ok (r.word x) else .error .unknownCode

def setWord? (r : Registers) (x : Register) (v : UInt16) : Except Fault Registers :=
  if x.isNamed then .ok (r.setWord x v) else .error .unknownCode

def get? (r : Registers) (part : RegisterPart) : Except Fault UInt16 :=
  if part.register.isNamed then .ok (r.get part) else .error .unknownCode

def set? (r : Registers) (part : RegisterPart) (v : UInt16) : Except Fault Registers :=
  if part.register.isNamed then .ok (r.set part v) else .error .unknownCode

/-! ## Printing -/

open Text

/-- The registers in the order in which they are printed, the flags apart. -/
def printed : List Register :=
  [.a, .b, .c, .d, .sp, .bp, .si, .di, .es, .cs, .ss, .ds, .ip]

/-- The line of a register in a dump. -/
def dumpLine (r : Registers) (x : Register) : String :=
  let v := (r.word x).toNat
  "      " ++ x.name ++ ": 0x" ++ hexPadded 4 v ++ " (" ++ decimal v ++ ")\n"

/-- The registers that are not zero. -/
def dump (r : Registers) : String :=
  "Final registers:\n" ++
    String.join ((printed.filter fun x => r.word x != 0).map r.dumpLine) ++
    (if r.flags != 0 then "   flags: " ++ Flags.render r.flags ++ "\n" else "")

/-- The change of a single register. -/
def changeOf (before after : Registers) (x : Register) : String :=
  " " ++ x.name ++ ":0x" ++ hex (before.word x).toNat ++ "->0x" ++ hex (after.word x).toNat

/-- The registers that differ, with their values before and after. -/
def changes (before after : Registers) : String :=
  String.join
      ((printed.filter fun x => before.word x != after.word x).map (changeOf before after)) ++
    (if before.flags != after.flags then
      " flags:" ++ Flags.render before.flags ++ "->" ++ Flags.render after.flags
    else "")

end Registers
end I8086
