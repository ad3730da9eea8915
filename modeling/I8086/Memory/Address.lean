/-!
# Addresses

The processor has twenty address lines: a physical address is a number below one mebibyte, and
whatever is added to one wraps around at the top. Programs name addresses by a segment and an
offset of sixteen bits each.
-/

set_option autoImplicit false

namespace I8086

/-- A physical address. -/
abbrev Address := BitVec 20

/-- The number of addresses. -/
def imageSize : Nat := 1048576

namespace Address

/-- The address that a number wraps around to. -/
def wrap (n : Nat) : Address :=
  BitVec.ofNatLT (n % imageSize) (Nat.mod_lt _ (by decide))

/-- The address of `segment : offset + extra`. The offset wraps inside its 64 KiB segment, the sum
at the top of the address space. -/
def ofSegment (segment offset extra : UInt16) : Address :=
  wrap (segment.toNat * 16 + (offset + extra).toNat)

/-- The low twenty bits of a number. -/
def ofWord (n : UInt32) : Address :=
  wrap n.toNat

def toWord (a : Address) : UInt32 :=
  UInt32.ofNat a.toNat

theorem toNat_lt (a : Address) : a.toNat < imageSize := a.isLt

@[simp] theorem toNat_wrap (n : Nat) : (wrap n).toNat = n % imageSize := rfl

@[simp] theorem wrap_toNat (a : Address) : wrap a.toNat = a :=
  BitVec.eq_of_toNat_eq (Nat.mod_eq_of_lt a.isLt)

theorem wrap_eq_ofNat (n : Nat) : wrap n = BitVec.ofNat 20 n := rfl

theorem toNat_ofSegment (segment offset extra : UInt16) :
    (ofSegment segment offset extra).toNat =
      (segment.toNat * 16 + (offset.toNat + extra.toNat) % 65536) % imageSize := by
  simp [ofSegment, UInt16.toNat_add]

theorem toNat_toWord (a : Address) : a.toWord.toNat = a.toNat := by
  have h := a.isLt
  simp only [toWord, UInt32.toNat_ofNat']
  omega

@[simp] theorem ofWord_toWord (a : Address) : ofWord a.toWord = a := by
  rw [ofWord, toNat_toWord, wrap_toNat]

end Address

/-- A position in the image, seen through a segment. -/
structure Cursor where
  segment : UInt16
  offset : UInt16
  deriving DecidableEq, Repr

namespace Cursor

/-- The physical address `extra` bytes behind the cursor. -/
def addressAt (c : Cursor) (extra : UInt16) : Address :=
  Address.ofSegment c.segment c.offset extra

/-- The physical address of the cursor. -/
def address (c : Cursor) : Address :=
  c.addressAt 0

/-- Moves `n` bytes forward inside the segment. -/
def advance (c : Cursor) (n : UInt32) : Cursor :=
  { c with offset := c.offset + n.toUInt16 }

@[simp] theorem advance_zero (c : Cursor) : c.advance 0 = c := by
  simp [advance]

theorem advance_advance (c : Cursor) (m n : UInt32) :
    (c.advance m).advance n = c.advance (m + n) := by
  simp [advance, UInt16.add_assoc]

end Cursor
end I8086
