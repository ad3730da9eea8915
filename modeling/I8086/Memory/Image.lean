import I8086.Fault
import I8086.Memory.Address

/-!
# Memory images

The memory of the machine is one mebibyte of bytes. `get` and `set` take physical addresses and
cannot fail; `get_set` and `ext` say that an image is a function of its addresses. The operations on
plain numbers check that the number is an address first.
-/

set_option autoImplicit false

namespace I8086

structure Image where
  bytes : ByteArray
  size_bytes : bytes.size = imageSize

namespace Image

theorem lt_size (m : Image) (a : Address) : a.toNat < m.bytes.size :=
  m.size_bytes ▸ a.isLt

/-- The byte at an address. -/
def get (m : Image) (a : Address) : UInt8 :=
  m.bytes.get a.toNat (m.lt_size a)

/-- Replaces the byte at an address. -/
def set (m : Image) (a : Address) (v : UInt8) : Image :=
  ⟨m.bytes.set a.toNat v (m.lt_size a), Eq.trans (Array.size_set ..) m.size_bytes⟩

/-- The image of zeros. -/
def zero : Image :=
  ⟨⟨Array.replicate imageSize 0⟩, by simp [ByteArray.size]⟩

@[simp] theorem get_zero (a : Address) : zero.get a = 0 :=
  Array.getElem_replicate _

@[simp] theorem get_set_self (m : Image) (a : Address) (v : UInt8) : (m.set a v).get a = v :=
  Array.getElem_set_self (m.lt_size a)

theorem get_set_of_ne (m : Image) {a b : Address} (v : UInt8) (h : a ≠ b) :
    (m.set a v).get b = m.get b :=
  Array.getElem_set_ne (m.lt_size a) (m.lt_size b) fun e => h (BitVec.eq_of_toNat_eq e)

theorem get_set (m : Image) (a b : Address) (v : UInt8) :
    (m.set a v).get b = if a = b then v else m.get b := by
  by_cases h : a = b
  · subst h; simp
  · simp [h, get_set_of_ne m v h]

/-- The byte at the address with number `i`, seen from the array. -/
theorem get_wrap {x : Array UInt8} (h : ByteArray.size ⟨x⟩ = imageSize) {i : Nat}
    (hi : i < x.size) : get ⟨⟨x⟩, h⟩ (Address.wrap i) = x[i] :=
  getElem_congr_idx (Nat.mod_eq_of_lt (Nat.lt_of_lt_of_eq hi h))

/-- Two images with the same bytes are the same. -/
theorem ext {m n : Image} (h : ∀ a, m.get a = n.get a) : m = n := by
  obtain ⟨⟨x⟩, hx⟩ := m
  obtain ⟨⟨y⟩, hy⟩ := n
  have : x = y := by
    refine Array.ext (Eq.trans hx hy.symm) fun i hi hi' => ?_
    rw [← get_wrap hx hi, ← get_wrap hy hi']
    exact h _
  subst this
  rfl

/-! ## Words

A word is stored low byte first. Its high byte is at the next physical address, which after the
last one is the first. -/

/-- The number with the given bytes. -/
def wordOf (low high : UInt8) : UInt16 :=
  low.toUInt16 ||| (high.toUInt16 <<< 8)

def getWord (m : Image) (a : Address) : UInt16 :=
  wordOf (m.get a) (m.get (a + 1))

def setWord (m : Image) (a : Address) (v : UInt16) : Image :=
  (m.set a v.toUInt8).set (a + 1) (v >>> 8).toUInt8

/-! ## Stretches of bytes -/

/-- `count` bytes from `a` on, continuing at the first address after the last one. -/
def getRange (m : Image) (a : Address) (count : Nat) : List UInt8 :=
  (List.range count).map fun i => m.get (a + Address.wrap i)

/-- Writes `bytes` from address number `start` on; what lies beyond the last address is dropped. -/
def setRange (m : Image) (start : Nat) : List UInt8 → Image
  | [] => m
  | v :: rest =>
    if start < imageSize then (m.set (Address.wrap start) v).setRange (start + 1) rest
    else m

theorem wrap_eq_iff {n : Nat} (hn : n < imageSize) (a : Address) :
    Address.wrap n = a ↔ n = a.toNat := by
  refine ⟨fun h => ?_, fun h => h ▸ Address.wrap_toNat a⟩
  rw [← h, Address.toNat_wrap, Nat.mod_eq_of_lt hn]

/-- The bytes that are written replace those that were there. -/
theorem get_setRange (m : Image) (start : Nat) (bytes : List UInt8) (a : Address) :
    (m.setRange start bytes).get a =
      if start ≤ a.toNat then bytes[a.toNat - start]?.getD (m.get a) else m.get a := by
  induction bytes generalizing m start with
  | nil => simp [setRange]
  | cons v rest ih =>
    have ha := a.toNat_lt
    rw [setRange]
    by_cases hs : start < imageSize
    · rw [if_pos hs, ih, get_set]
      simp only [wrap_eq_iff hs]
      rcases Nat.lt_trichotomy start a.toNat with h | h | h
      · have hindex : a.toNat - start = a.toNat - (start + 1) + 1 := by omega
        rw [if_pos (by omega), if_neg (by omega), if_pos (by omega), hindex,
          List.getElem?_cons_succ]
      · rw [if_neg (by omega), if_pos h, if_pos (by omega), h, Nat.sub_self]
        rfl
      · rw [if_neg (by omega), if_neg (by omega), if_neg (by omega)]
    · rw [if_neg hs, if_neg (by omega)]

/-! ## Access by number -/

/-- The address with a given number, if there is one. -/
def checkAddress (n : UInt32) : Except Fault Address :=
  if n.toNat < imageSize then .ok (Address.ofWord n) else .error (.outsideImage n)

def read8 (m : Image) (n : UInt32) : Except Fault UInt8 :=
  (checkAddress n).map m.get

def write8 (m : Image) (n : UInt32) (v : UInt8) : Except Fault Image :=
  (checkAddress n).map fun a => m.set a v

def read16 (m : Image) (n : UInt32) : Except Fault UInt16 :=
  (checkAddress n).map m.getWord

def write16 (m : Image) (n : UInt32) (v : UInt16) : Except Fault Image :=
  (checkAddress n).map fun a => m.setWord a v

/-- `count` bytes from the address that the low twenty bits of `n` name. -/
def read (m : Image) (n count : UInt32) : List UInt8 :=
  m.getRange (Address.ofWord n) count.toNat

/-- Places `program` at number `n` and counts the bytes that fit. -/
def copy (m : Image) (n : UInt32) (program : List UInt8) : Except Fault (UInt32 × Image) :=
  (checkAddress n).map fun a =>
    (UInt32.ofNat (min program.length (imageSize - a.toNat)), m.setRange a.toNat program)

end Image
end I8086
