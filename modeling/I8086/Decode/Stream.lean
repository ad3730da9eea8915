import I8086.Decode.Basic

/-!
# Decoding a region

A `Decoder` walks a region of the image instruction by instruction and keeps the instructions it
found. `Decoder.progress_next` says that every step that finds one moves towards the end of the
region, so decoding a region ends.
-/

set_option autoImplicit false

namespace I8086

/-- Why a region gave no further instruction. -/
inductive StreamEnd
  /-- The region is used up. -/
  | finished
  | failed (e : DecodeError)
  deriving DecidableEq, Repr

structure Decoder where
  image : Image
  pending : Pending
  /-- The place of the next instruction. -/
  cursor : Cursor
  /-- The size of the region. -/
  count : UInt32
  /-- How many bytes of the region were decoded. -/
  pos : UInt32
  decoded : Array Instruction

namespace Decoder

/-- A decoder for `count` bytes from `cursor` on. -/
def new (image : Image) (cursor : Cursor) (count : UInt32) : Decoder :=
  ⟨image, .clear, cursor, count, 0, #[]⟩

/-- A decoder for a program at the start of an empty image. -/
def ofProgram (program : List UInt8) : Decoder :=
  new (Image.zero.setRange 0 program) ⟨0, 0⟩ (UInt32.ofNat (min program.length imageSize))

/-- The next instruction. A region that ends in prefixes is truncated. -/
def next (d : Decoder) : Except StreamEnd Instruction × Decoder :=
  if d.pos ≥ d.count then
    if d.pending.waits then (.error (.failed (.ofCursor d.image d.cursor .truncated)), d)
    else (.error .finished, d)
  else
    match decodeWithin d.pending d.image d.cursor (d.count - d.pos) with
    | .error cause => (.error (.failed (.ofCursor d.image d.cursor cause)), d)
    | .ok x =>
      (.ok x.instruction,
        { d with
          pending := x.pending
          cursor := x.cursor
          pos := d.pos + x.instruction.size
          decoded := d.decoded.push x.instruction })

/-- The bytes of the region that are not decoded yet. -/
def left (d : Decoder) : Nat :=
  d.count.toNat - d.pos.toNat

theorem progress_next {d d' : Decoder} {i : Instruction} (h : d.next = (.ok i, d')) :
    d'.left < d.left := by
  unfold next at h
  split at h
  · split at h <;> simp at h
  · rename_i hp
    split at h
    · simp at h
    · rename_i x hx
      have hsize := size_of_decodeWithin hx
      have hlt : d.pos.toNat < d.count.toNat := by
        simpa [UInt32.lt_iff_toNat_lt, UInt32.le_iff_toNat_le] using hp
      have hsub : (d.count - d.pos).toNat = d.count.toNat - d.pos.toNat :=
        UInt32.toNat_sub_of_le _ _ (by rw [UInt32.le_iff_toNat_le]; omega)
      have hc := d.count.toNat_lt
      simp only [Prod.mk.injEq] at h
      rw [← h.2]
      simp only [left, UInt32.toNat_add]
      omega

/-- Decodes what is left of the region; the error is the one that stopped it early. -/
def decodeAll (d : Decoder) : Option DecodeError × Decoder :=
  match _ : d.next with
  | (.ok _, d') => d'.decodeAll
  | (.error .finished, d') => (none, d')
  | (.error (.failed e), d') => (some e, d')
termination_by d.left
decreasing_by exact progress_next ‹_›

end Decoder
end I8086
