/-!
# Cyclic redundancy checks

The two checks that compressed programs carry, bit by bit with the least significant bit first.
-/

set_option autoImplicit false

namespace I8086
namespace Checksum

/-- One bit of the 32 bit check. -/
def shift32 (crc : UInt32) : UInt32 :=
  if crc &&& 1 = 1 then (crc >>> 1) ^^^ 0xedb88320 else crc >>> 1

/-- One bit of the 64 bit check. -/
def shift64 (crc : UInt64) : UInt64 :=
  if crc &&& 1 = 1 then (crc >>> 1) ^^^ 0xc96c5795d7870f42 else crc >>> 1

/-- `f` applied eight times, once for each bit of a byte. -/
def eightTimes {α : Type} (f : α → α) (x : α) : α :=
  f (f (f (f (f (f (f (f x)))))))

def crc32 (bytes : List UInt8) : UInt32 :=
  ~~~bytes.foldl (fun crc b => eightTimes shift32 (crc ^^^ b.toUInt32)) 0xffffffff

def crc64 (bytes : List UInt8) : UInt64 :=
  ~~~bytes.foldl (fun crc b => eightTimes shift64 (crc ^^^ b.toUInt64)) 0xffffffffffffffff

end Checksum
end I8086
