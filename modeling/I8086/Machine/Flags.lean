import I8086.Text.Numeral

/-!
# The flags word

The positions of the flags, what an arithmetic result does to them, and the conditions of the
jumps. Widths are in bytes: two for words, and anything else is taken for one.
-/

set_option autoImplicit false

namespace I8086
namespace Flags

def carry : UInt16 := 0x001
def parity : UInt16 := 0x004
def auxiliary : UInt16 := 0x010
def zero : UInt16 := 0x040
def sign : UInt16 := 0x080
def trap : UInt16 := 0x100
def interrupt : UInt16 := 0x200
def direction : UInt16 := 0x400
def overflow : UInt16 := 0x800

/-- The flags that arithmetic sets or clears. -/
def arithmetic : UInt16 :=
  carry ||| parity ||| auxiliary ||| zero ||| sign ||| overflow

/-- Whether one of `wanted` is set. -/
def has (flags wanted : UInt16) : Bool :=
  flags &&& wanted != 0

/-- `flag` if `p` holds, and nothing otherwise. -/
def when (p : Bool) (flag : UInt16) : UInt16 :=
  if p then flag else 0

/-- The letters of the flags, in the order in which they are listed. -/
def letters : List (UInt16 × String) := [
  (carry, "C"), (parity, "P"), (auxiliary, "A"), (zero, "Z"), (sign, "S"), (trap, "T"),
  (interrupt, "I"), (direction, "D"), (overflow, "O")]

/-- The letters of the flags that are set. -/
def render (flags : UInt16) : String :=
  String.join ((letters.filter fun entry => has flags entry.1).map Prod.snd)

/-- The bits of a number of the given width. -/
def widthMask (width : UInt8) : UInt32 :=
  if width = 2 then 0xffff else 0xff

/-- The topmost bit of a number of the given width. -/
def signBit (width : UInt8) : UInt32 :=
  if width = 2 then 0x8000 else 0x80

/-- How many bits of a byte are set. -/
def ones (byte : UInt8) : Nat :=
  ((List.range 8).filter fun i => byte.toNat.testBit i).length

/-- Whether the number of bits set is even. -/
def hasEvenParity (byte : UInt8) : Bool :=
  ones byte % 2 == 0

/-- The flags after an operation whose result, before it is cut to its width, is `result`: it is
larger than the width allows if the operation carried or borrowed. -/
def ofResult (flags : UInt16) (result : UInt32) (width : UInt8) : UInt16 :=
  let mask := widthMask width
  let masked := result &&& mask
  (flags &&& ~~~arithmetic) |||
    when (masked == 0) zero |||
    when (masked &&& signBit width != 0) sign |||
    when (result > mask) carry |||
    when (hasEvenParity masked.toUInt8) parity

/-- The flags after adding `b` to `a` or subtracting it. The carry out of the low nibble and the
overflow depend on the operands, too. -/
def ofOperands (flags : UInt16) (a b result : UInt32) (width : UInt8) (subtract : Bool) : UInt16 :=
  let differ := a ^^^ b
  let overflowed := (if subtract then differ else ~~~differ) &&& (a ^^^ result) &&& signBit width
  ofResult flags result width |||
    when ((a ^^^ b ^^^ result) &&& 0x10 != 0) auxiliary |||
    when (overflowed != 0) overflow

end Flags
end I8086
