import I8086.Memory.Image

/-!
# The bit reader

Reads the instruction stream at a cursor, most significant bits first. A byte is fetched when all
the bits of the one before are used up, and no more than a given number of bytes is fetched at all.

`BitReader.Follows` collects what every read keeps: the number of bytes fetched and still allowed
adds up, and the cursor stands behind the bytes fetched.
-/

set_option autoImplicit false

namespace I8086

inductive BitError
  /-- No more bytes may be fetched. -/
  | truncated
  /-- The pending byte has fewer bits left than the field needs. -/
  | underrun
  /-- A field can have eight bits at most. -/
  | tooWide (width : UInt8)
  deriving DecidableEq, Repr

structure BitReader where
  image : Image
  /-- The next byte to fetch. -/
  cursor : Cursor
  /-- How many bytes may still be fetched. -/
  remaining : UInt32
  /-- How many bytes were fetched. -/
  consumed : UInt32
  /-- The byte whose bits are being handed out. -/
  pending : UInt8
  /-- How many of its bits are left. -/
  pendingCount : UInt8

namespace BitReader

/-- A reader at `cursor` that may fetch `limit` bytes. -/
def start (image : Image) (cursor : Cursor) (limit : UInt32) : BitReader :=
  ⟨image, cursor, limit, 0, 0, 0⟩

/-- Fetches a whole byte; the pending bits stay. -/
@[inline] def next (r : BitReader) : Except BitError UInt8 × BitReader :=
  if r.remaining = 0 then (.error .truncated, r)
  else (.ok (r.image.get r.cursor.address),
    { r with
      cursor := r.cursor.advance 1
      remaining := r.remaining - 1
      consumed := r.consumed + 1 })

/-- The `width` topmost of `count` bits left in a byte. -/
def topBits (byte : UInt8) (count width : UInt8) : UInt32 :=
  ((byte >>> (count - width)).toUInt32) &&& ((1 <<< width.toUInt32) - 1)

/-- Hands out `width` bits of the pending byte. -/
@[inline] def takePending (r : BitReader) (width : UInt8) : Except BitError UInt32 × BitReader :=
  if width > r.pendingCount then (.error .underrun, r)
  else (.ok (topBits r.pending r.pendingCount width),
    { r with pendingCount := r.pendingCount - width })

/-- Hands out `width` bits, fetching a byte if none is pending. -/
@[inline] def take (r : BitReader) (width : UInt8) : Except BitError UInt32 × BitReader :=
  if width = 0 then (.ok 0, r)
  else if width > 8 then (.error (.tooWide width), r)
  else if r.pendingCount = 0 then
    match r.next with
    | (.error e, r) => (.error e, r)
    | (.ok byte, r) => takePending { r with pending := byte, pendingCount := 8 } width
  else takePending r width

/-- A byte as a number of 32 bits. -/
def extend (signExtended : Bool) (byte : UInt8) : UInt32 :=
  if signExtended then byte.toInt8.toInt32.toUInt32 else byte.toUInt32

/-- Fetches a number: one byte, or two with the low one first. -/
def value (r : BitReader) (wide signExtended : Bool) : Except BitError UInt32 × BitReader :=
  match r.next with
  | (.error e, r) => (.error e, r)
  | (.ok low, r) =>
    if wide then
      match r.next with
      | (.error e, r) => (.error e, r)
      | (.ok high, r) => (.ok (Image.wordOf low high).toUInt32, r)
    else (.ok (extend signExtended low), r)

/-! ## What every read keeps -/

/-- `r'` comes from `r` by fetching some of the bytes that `r` may fetch. -/
structure Follows (r r' : BitReader) : Prop where
  image_eq : r'.image = r.image
  remaining_le : r'.remaining.toNat ≤ r.remaining.toNat
  sum_eq : r'.consumed + r'.remaining = r.consumed + r.remaining
  cursor_eq : r'.cursor = r.cursor.advance (r'.consumed - r.consumed)

theorem Follows.refl (r : BitReader) : Follows r r :=
  ⟨rfl, Nat.le_refl _, rfl, by rw [UInt32.sub_self, Cursor.advance_zero]⟩

theorem Follows.trans {a b c : BitReader} (h : Follows a b) (k : Follows b c) : Follows a c := by
  refine ⟨k.image_eq.trans h.image_eq, Nat.le_trans k.remaining_le h.remaining_le,
    k.sum_eq.trans h.sum_eq, ?_⟩
  rw [k.cursor_eq, h.cursor_eq, Cursor.advance_advance]
  congr 1
  grind

theorem toNat_sub_one {n : UInt32} (h : n ≠ 0) : (n - 1).toNat + 1 = n.toNat := by
  have h0 : n.toNat ≠ 0 := fun e => h (UInt32.toNat_inj.1 (by simpa using e))
  have h1 : (1 : UInt32) ≤ n := by rw [UInt32.le_iff_toNat_le]; simp; omega
  rw [UInt32.toNat_sub_of_le _ _ h1]
  simp; omega

theorem follows_next (r : BitReader) : Follows r r.next.2 := by
  unfold next
  split
  · exact Follows.refl r
  · rename_i h
    have := toNat_sub_one h
    have hc : r.consumed + 1 - r.consumed = 1 := by grind
    refine ⟨rfl, by simp only; omega, ?_, by simp only [hc]⟩
    simp only
    grind

theorem remaining_next {r r' : BitReader} {b : UInt8} (h : r.next = (.ok b, r')) :
    r'.remaining.toNat < r.remaining.toNat := by
  unfold next at h
  split at h
  · simp at h
  · rename_i hr
    have := toNat_sub_one hr
    simp only [Prod.mk.injEq] at h
    rw [← h.2]
    simp only
    omega

theorem follows_takePending (r : BitReader) (width : UInt8) :
    Follows r (r.takePending width).2 := by
  unfold takePending
  split
  · exact Follows.refl r
  · have h := Follows.refl r
    exact ⟨rfl, h.remaining_le, rfl, h.cursor_eq⟩

theorem follows_take (r : BitReader) (width : UInt8) : Follows r (r.take width).2 := by
  unfold take
  split
  · exact Follows.refl r
  · split
    · exact Follows.refl r
    · split
      · have hn := follows_next r
        split
        · rename_i h; rw [h] at hn; exact hn
        · rename_i b r' h
          rw [h] at hn
          have hb := follows_takePending { r' with pending := b, pendingCount := 8 } width
          exact hn.trans ⟨hb.image_eq, hb.remaining_le, hb.sum_eq, hb.cursor_eq⟩
      · exact follows_takePending r width

/-- A successful first read of a field fetches a byte. -/
theorem remaining_take {r r' : BitReader} {width : UInt8} {v : UInt32} (hw : width ≠ 0)
    (hp : r.pendingCount = 0) (h : r.take width = (.ok v, r')) :
    r'.remaining.toNat < r.remaining.toNat := by
  unfold take at h
  rw [if_neg hw] at h
  split at h
  · simp at h
  · split at h
    · simp at h
    · rename_i b r₁ hn
      have h1 := remaining_next hn
      have h2 := follows_takePending { r₁ with pending := b, pendingCount := 8 } width
      rw [h] at h2
      exact Nat.lt_of_le_of_lt h2.remaining_le h1

theorem follows_value (r : BitReader) (wide signExtended : Bool) :
    Follows r (r.value wide signExtended).2 := by
  have h1 := follows_next r
  unfold value
  split
  · rename_i h; rw [h] at h1; exact h1
  · rename_i low r₁ h
    rw [h] at h1
    split
    · have h2 := follows_next r₁
      split
      · rename_i h'; rw [h'] at h2; exact h1.trans h2
      · rename_i h'; rw [h'] at h2; exact h1.trans h2
    · exact h1

end BitReader
end I8086
