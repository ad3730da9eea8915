import Mathlib.Algebra.Ring.Nat
import I8086.Encoding.Match

/-!
# Where the fields of a format stand

A format is read field by field, but where each of its fields stands in the stream is known before
anything is read: the widths of the fields in front of it add up to its place, counted in bits.
This file lays a format out that way and says what a reader finds there.

* `BitReader.atPlace` is the reader that stands at a place, and `liftRead_take_atPlace` and
  `liftRead_value_afterBytes` say what the two kinds of reads give: bits of one byte, or whole bytes.
* `Format.places` lists the fields with their places, and `Placed.value` reads one of them off the
  bytes without a reader.
* `readFields_atPlace` is the bridge: as long as no field crosses the end of a byte, reading the
  fields one after the other is the same as testing all literals and collecting the other values.

Nothing here is about a particular instruction set.
-/

set_option autoImplicit false

namespace I8086

/-! ## The bytes behind a cursor -/

/-- The byte `n` places behind a cursor; the offset wraps inside its segment. -/
def Image.along (image : Image) (cursor : Cursor) (n : Nat) : UInt8 :=
  image.get (cursor.addressAt (.ofNat n))

theorem Cursor.address_advance (c : Cursor) (n : Nat) :
    (c.advance (.ofNat n)).address = c.addressAt (.ofNat n) := by
  simp [advance, address, addressAt, Address.ofSegment]

theorem Image.along_zero (image : Image) (cursor : Cursor) :
    image.along cursor 0 = image.get cursor.address := rfl

theorem Image.along_one (image : Image) (cursor : Cursor) :
    image.along cursor 1 = image.get (cursor.advance 1).address :=
  congrArg image.get (cursor.address_advance 1).symm

/-- `width` bits from a place on, if they all lie in the byte in which the place is. -/
def bitsAt (bytes : Nat → UInt8) (place width : Nat) : Nat :=
  (bytes (place / 8)).toNat / 2 ^ (8 - place % 8 - width) % 2 ^ width

theorem bitsAt_lt (bytes : Nat → UInt8) (place width : Nat) : bitsAt bytes place width < 2 ^ width :=
  Nat.mod_lt _ (Nat.two_pow_pos width)

/-- The number that one byte, or two with the low one first, stand for. -/
def numberAt (bytes : Nat → UInt8) (n : Nat) (wide signExtended : Bool) : UInt32 :=
  if wide then (Image.wordOf (bytes n) (bytes (n + 1))).toUInt32
  else BitReader.extend signExtended (bytes n)

/-! ## Readers inside the stream -/

namespace BitReader

variable (image : Image) (cursor : Cursor) (limit : UInt32)

/-- The reader behind the first `n` bytes, with `pendingCount` bits of `pending` left. -/
def afterBytes (n : Nat) (pending pendingCount : UInt8) : BitReader :=
  ⟨image, cursor.advance (.ofNat n), limit - .ofNat n, .ofNat n, pending, pendingCount⟩

/-- The reader behind the first `place` bits. -/
def atPlace (place : Nat) : BitReader :=
  afterBytes image cursor limit ((place + 7) / 8)
    (if place = 0 then 0 else image.along cursor ((place - 1) / 8))
    (.ofNat ((8 - place % 8) % 8))

@[simp] theorem pendingCount_afterBytes (n : Nat) (pending count : UInt8) :
    (afterBytes image cursor limit n pending count).pendingCount = count := rfl

theorem start_eq_atPlace : start image cursor limit = atPlace image cursor limit 0 := by
  simp [start, atPlace, afterBytes]

theorem toNat_topBits {byte count width : UInt8} (hw : width.toNat ≤ count.toNat)
    (hc : count.toNat ≤ 8) :
    (topBits byte count width).toNat = byte.toNat / 2 ^ (count.toNat - width.toNat) %
      2 ^ width.toNat := by
  have hsub : (count - width).toNat = count.toNat - width.toNat :=
    UInt8.toNat_sub_of_le _ _ (UInt8.le_iff_toNat_le.2 hw)
  have hpow : 2 ^ width.toNat ≤ 2 ^ 8 := Nat.pow_le_pow_right (by decide) (Nat.le_trans hw hc)
  have hpos := Nat.two_pow_pos width.toNat
  have hmask : ((1 : UInt32) <<< width.toUInt32 - 1).toNat = 2 ^ width.toNat - 1 := by
    have h1 : ((1 : UInt32) <<< width.toUInt32).toNat = 2 ^ width.toNat := by
      rw [UInt32.toNat_shiftLeft, UInt8.toNat_toUInt32,
        Nat.mod_eq_of_lt (show width.toNat < 32 by omega), Nat.shiftLeft_eq, UInt32.toNat_one,
        Nat.one_mul, Nat.mod_eq_of_lt (by omega)]
    rw [UInt32.toNat_sub_of_le _ _ (UInt32.le_iff_toNat_le.2 (by rw [h1]; exact hpos)), h1]
    rfl
  rw [topBits, UInt32.toNat_and, hmask, Nat.and_two_pow_sub_one_eq_mod, UInt8.toNat_toUInt32,
    UInt8.toNat_shiftRight, hsub, Nat.shiftRight_eq_div_pow]
  -- a shift by all eight bits does nothing, but then no bits are asked for
  rcases Nat.lt_or_ge (count.toNat - width.toNat) 8 with h | h
  · rw [Nat.mod_eq_of_lt h]
  · have hz : width.toNat = 0 := by omega
    rw [hz, Nat.pow_zero, Nat.mod_one, Nat.mod_one]

theorem toNat_ofNat_of_le {n : Nat} (h : n ≤ 8) : (UInt8.ofNat n).toNat = n := by
  rw [UInt8.toNat_ofNat', Nat.mod_eq_of_lt (by omega)]

variable {image cursor limit}

theorem next_afterBytes {n : Nat} {pending count : UInt8} (hn : n ≤ limit.toNat) :
    (afterBytes image cursor limit n pending count).next =
      if n < limit.toNat then
        (.ok (image.along cursor n), afterBytes image cursor limit (n + 1) pending count)
      else (.error .truncated, afterBytes image cursor limit n pending count) := by
  have hlt : n < 2 ^ 32 := Nat.lt_of_le_of_lt hn limit.toNat_lt
  have hle : UInt32.ofNat n ≤ limit := by
    rw [UInt32.le_iff_toNat_le, UInt32.toNat_ofNat_of_lt' hlt]; exact hn
  have hleft : (limit - .ofNat n).toNat = limit.toNat - n := by
    rw [UInt32.toNat_sub_of_le _ _ hle, UInt32.toNat_ofNat_of_lt' hlt]
  have hz : (afterBytes image cursor limit n pending count).remaining = 0 ↔ ¬ n < limit.toNat := by
    rw [afterBytes, ← UInt32.toNat_inj, hleft, UInt32.toNat_zero]; omega
  have hs : UInt32.ofNat n + 1 = .ofNat (n + 1) := by simp [UInt32.ofNat_add]
  by_cases h : n < limit.toNat
  · rw [if_pos h, next, if_neg (fun e => hz.1 e h)]
    simp only [afterBytes, Cursor.advance_advance, hs, Prod.mk.injEq, Except.ok.injEq,
      BitReader.mk.injEq, true_and]
    refine ⟨by rw [Image.along, Cursor.address_advance], ?_, trivial⟩
    rw [← hs]
    grind
  · rw [if_neg h, next, if_pos (hz.2 h)]

theorem liftRead_value_afterBytes {n : Nat} {pending count : UInt8} {wide signExtended : Bool}
    (hn : n ≤ limit.toNat) :
    liftRead ((afterBytes image cursor limit n pending count).value wide signExtended) =
      if n + (if wide then 2 else 1) ≤ limit.toNat then
        .ok (numberAt (image.along cursor) n wide signExtended,
          afterBytes image cursor limit (n + if wide then 2 else 1) pending count)
      else .error .truncated := by
  rw [value, next_afterBytes hn]
  by_cases h : n < limit.toNat
  · have h1 : n + 1 ≤ limit.toNat := h
    rw [if_pos h]
    cases wide with
    | false => simp [numberAt, liftRead, h1]
    | true =>
      simp only [if_true, next_afterBytes h1]
      by_cases h2 : n + 1 < limit.toNat
      · simp [numberAt, liftRead, h2, show n + 2 ≤ limit.toNat from h2]
      · rw [if_neg h2, if_neg (by omega)]
        rfl
  · rw [if_neg h, if_neg (by split <;> omega)]
    rfl

theorem liftRead_takePending_afterBytes {n count : Nat} {byte width : UInt8}
    (hw : width.toNat ≤ count) (hc : count ≤ 8) :
    liftRead ((afterBytes image cursor limit n byte (.ofNat count)).takePending width) =
      .ok (.ofNat (byte.toNat / 2 ^ (count - width.toNat) % 2 ^ width.toNat),
        afterBytes image cursor limit n byte (.ofNat (count - width.toNat))) := by
  have hcount : (UInt8.ofNat count).toNat = count := toNat_ofNat_of_le (by omega)
  have hle : width ≤ .ofNat count := by rw [UInt8.le_iff_toNat_le, hcount]; exact hw
  have hbits : (topBits byte (.ofNat count) width).toNat = _ :=
    toNat_topBits (hcount.symm ▸ hw) (hcount.symm ▸ hc)
  have hsub : UInt8.ofNat count - width = .ofNat (count - width.toNat) := by
    rw [← UInt8.toNat_inj, UInt8.toNat_sub_of_le _ _ hle, hcount, toNat_ofNat_of_le (by omega)]
  rw [hcount] at hbits
  rw [takePending, pendingCount_afterBytes, if_neg (UInt8.not_lt.2 hle), ← hsub, ← hbits,
    UInt32.ofNat_toNat]
  rfl

/-- A field that does not cross the end of its byte is read, unless its byte may not be fetched. -/
theorem liftRead_take_atPlace {place : Nat} {width : UInt8} (h0 : width ≠ 0)
    (hw : place % 8 + width.toNat ≤ 8) (hp : (place + 7) / 8 ≤ limit.toNat) :
    liftRead ((atPlace image cursor limit place).take width) =
      if place / 8 < limit.toNat then
        .ok (.ofNat (bitsAt (image.along cursor) place width.toNat),
          atPlace image cursor limit (place + width.toNat))
      else .error .truncated := by
  have hpos : 0 < width.toNat := Nat.pos_of_ne_zero fun e => h0 (UInt8.toNat_inj.1 e)
  have h8 : ¬ width > 8 := by rw [gt_iff_lt, UInt8.lt_iff_toNat_lt]; simp; omega
  have hafter : atPlace image cursor limit (place + width.toNat) =
      afterBytes image cursor limit (place / 8 + 1) (image.along cursor (place / 8))
        (.ofNat (8 - place % 8 - width.toNat)) := by
    rw [atPlace, if_neg (by omega)]
    congr 2 <;> omega
  have hread : place / 8 < limit.toNat →
      liftRead ((afterBytes image cursor limit (place / 8 + 1) (image.along cursor (place / 8))
        (.ofNat (8 - place % 8))).takePending width) =
      .ok (.ofNat (bitsAt (image.along cursor) place width.toNat),
          atPlace image cursor limit (place + width.toNat)) := fun _ => by
    rw [liftRead_takePending_afterBytes (by omega) (by omega), hafter]
    rfl
  rw [take, if_neg h0, if_neg h8]
  by_cases hz : place % 8 = 0
  · have hn : (place + 7) / 8 = place / 8 := by omega
    have hr : atPlace image cursor limit place = afterBytes image cursor limit (place / 8)
        (if place = 0 then 0 else image.along cursor ((place - 1) / 8)) 0 := by
      rw [atPlace, hn, hz]; rfl
    rw [hr, pendingCount_afterBytes, if_pos rfl, next_afterBytes (hn ▸ hp)]
    by_cases hl : place / 8 < limit.toNat
    · rw [if_pos hl, if_pos hl, ← hread hl, hz]
      rfl
    · rw [if_neg hl, if_neg hl]
      rfl
  · have hn : (place + 7) / 8 = place / 8 + 1 := by omega
    have hr : atPlace image cursor limit place = afterBytes image cursor limit (place / 8 + 1)
        (image.along cursor (place / 8)) (.ofNat (8 - place % 8)) := by
      rw [atPlace, hn, if_neg (by omega), Nat.mod_eq_of_lt (by omega)]
      congr 2; omega
    have hl : place / 8 < limit.toNat := by omega
    have hcount : UInt8.ofNat (8 - place % 8) ≠ 0 := by
      intro e
      have := congrArg UInt8.toNat e
      rw [toNat_ofNat_of_le (by omega)] at this
      simp at this; omega
    rw [if_pos hl, ← hread hl, hr, pendingCount_afterBytes, if_neg hcount]

end BitReader

/-! ## Fields and their places -/

/-- A field together with the number of stream bits in front of it. -/
structure Placed where
  place : Nat
  field : Field
  deriving DecidableEq, Repr

namespace Placed

/-- What the field reads off the bytes of a stream. -/
def value (bytes : Nat → UInt8) (x : Placed) : UInt32 :=
  if x.field.bits = 0 then x.field.value else .ofNat (bitsAt bytes x.place x.field.bits.toNat)

def isLiteral (x : Placed) : Bool := x.field.usage == .literal

/-- A literal has to read its own value; the other fields take what they find. -/
def agrees (bytes : Nat → UInt8) (x : Placed) : Bool :=
  !x.isLiteral || x.value bytes == x.field.value

/-- The field has a meaning and ends in the byte in which it starts. -/
def fits (x : Placed) : Bool :=
  x.field.usage.isNamed && decide (x.place % 8 + x.field.bits.toNat ≤ 8)

theorem fits_iff {x : Placed} : x.fits = true ↔
    x.field.usage.isNamed = true ∧ x.place % 8 + x.field.bits.toNat ≤ 8 := by
  rw [fits, Bool.and_eq_true, decide_eq_true_eq]

/-- What a field contributes if it reads `value x`. -/
def contribution (value : Placed → UInt32) (x : Placed) : Usage × UInt32 :=
  (x.field.usage, shiftUp (value x) x.field.shift)

end Placed

/-- The fields in order, the first one at `place`. -/
def placesFrom (place : Nat) : List Field → List Placed
  | [] => []
  | field :: rest => ⟨place, field⟩ :: placesFrom (place + field.bits.toNat) rest

/-- The number of stream bits that some fields take. -/
def widthOf (fields : List Field) : Nat := (fields.map fun field => field.bits.toNat).sum

@[simp] theorem widthOf_nil : widthOf [] = 0 := rfl

@[simp] theorem widthOf_cons (field : Field) (rest : List Field) :
    widthOf (field :: rest) = field.bits.toNat + widthOf rest := List.sum_cons

theorem le_place_of_mem {fields : List Field} {place : Nat} {x : Placed}
    (h : x ∈ placesFrom place fields) : place ≤ x.place := by
  induction fields generalizing place with
  | nil => simp [placesFrom] at h
  | cons field rest ih =>
    rcases List.mem_cons.1 h with rfl | h
    · exact Nat.le_refl _
    · exact Nat.le_trans (Nat.le_add_right _ _) (ih h)

theorem place_add_le_of_mem {fields : List Field} {place : Nat} {x : Placed}
    (h : x ∈ placesFrom place fields) :
    x.place + x.field.bits.toNat ≤ place + widthOf fields := by
  induction fields generalizing place with
  | nil => simp [placesFrom] at h
  | cons field rest ih =>
    rw [widthOf_cons]
    rcases List.mem_cons.1 h with rfl | h
    · simp only; omega
    · have := ih h; omega

/-- What the fields that are no literals contribute. -/
def collect (value : Placed → UInt32) (xs : List Placed) : Fields :=
  (xs.filter fun x => !x.isLiteral).map (Placed.contribution value)

theorem collect_cons_literal {value : Placed → UInt32} {x : Placed} {xs : List Placed}
    (h : x.isLiteral = true) : collect value (x :: xs) = collect value xs := by
  simp [collect, h]

theorem collect_cons_of_not_literal {value : Placed → UInt32} {x : Placed} {xs : List Placed}
    (h : x.isLiteral = false) :
    collect value (x :: xs) = x.contribution value :: collect value xs := by
  simp [collect, h]

/-- All literals that start in the first `limit` bytes agree with the stream. -/
def agreesWithin (bytes : Nat → UInt8) (limit : Nat) (xs : List Placed) : Bool :=
  xs.all fun x => decide (limit ≤ x.place / 8) || x.agrees bytes

theorem agreesWithin_cons (bytes : Nat → UInt8) (limit : Nat) (x : Placed) (xs : List Placed) :
    agreesWithin bytes limit (x :: xs) =
      ((decide (limit ≤ x.place / 8) || x.agrees bytes) && agreesWithin bytes limit xs) := rfl

/-- Literals behind the limit are not compared. -/
theorem agreesWithin_beyond {bytes : Nat → UInt8} {limit place : Nat} (h : limit ≤ place / 8)
    (fields : List Field) : agreesWithin bytes limit (placesFrom place fields) = true := by
  refine List.all_eq_true.2 fun x hx => ?_
  have hplace := le_place_of_mem hx
  rw [Bool.or_eq_true, decide_eq_true_eq]
  exact .inl (by omega)

/-- A literal whose byte may be fetched is compared; an implicit one agrees with everything. -/
theorem Placed.agrees_of_readable {bytes : Nat → UInt8} {limit : Nat} {x : Placed}
    (h : x.field.bits = 0 ∨ x.place / 8 < limit) :
    (decide (limit ≤ x.place / 8) || x.agrees bytes) = x.agrees bytes := by
  rcases h with h0 | hl
  · simp [agrees, value, h0]
  · rw [decide_eq_false (Nat.not_le.2 hl), Bool.false_or]

/-! ## Reading all fields -/

section Read

open BitReader

variable {image : Image} {cursor : Cursor} {limit : UInt32}

theorem Field.read_atPlace {field : Field} {place : Nat}
    (hfits : Placed.fits ⟨place, field⟩ = true) (hp : (place + 7) / 8 ≤ limit.toNat) :
    field.read (atPlace image cursor limit place) =
      if field.bits = 0 ∨ place / 8 < limit.toNat then
        .ok (Placed.value (image.along cursor) ⟨place, field⟩,
          atPlace image cursor limit (place + field.bits.toNat))
      else .error .truncated := by
  rw [Field.read, Placed.value]
  by_cases h0 : field.bits = 0
  · simp [h0]
  · rw [if_neg h0, if_neg h0, liftRead_take_atPlace h0 (Placed.fits_iff.1 hfits).2 hp]
    simp only [h0, false_or]

/-- **Reading the fields of a format in order.** The literals whose bytes may be fetched decide
whether the format describes the stream; only then does it matter whether all of its bytes may be
fetched. -/
theorem readFields_atPlace {fields : List Field} {place : Nat}
    (hfits : ∀ x ∈ placesFrom place fields, x.fits = true)
    (hp : (place + 7) / 8 ≤ limit.toNat) :
    readFields fields (atPlace image cursor limit place) =
      if agreesWithin (image.along cursor) limit.toNat (placesFrom place fields) then
        if (place + widthOf fields + 7) / 8 ≤ limit.toNat then
          .ok (collect (Placed.value (image.along cursor)) (placesFrom place fields),
            atPlace image cursor limit (place + widthOf fields))
        else .error .truncated
      else .error .mismatch := by
  induction fields generalizing place with
  | nil => simp [readFields, placesFrom, agreesWithin, collect, hp]
  | cons field rest ih =>
    have hx := hfits ⟨place, field⟩ (by simp [placesFrom])
    have hrest : ∀ x ∈ placesFrom (place + field.bits.toNat) rest, x.fits = true :=
      fun x h => hfits x (List.mem_cons_of_mem _ h)
    have hnamed : field.usage.isNamed = true := (Placed.fits_iff.1 hx).1
    rw [readFields, Field.read_atPlace hx hp, placesFrom, widthOf_cons, agreesWithin_cons]
    by_cases hread : field.bits = 0 ∨ place / 8 < limit.toNat
    · have hp' : (place + field.bits.toNat + 7) / 8 ≤ limit.toNat := by
        have hbits := (Placed.fits_iff.1 hx).2
        rcases hread with h0 | hl
        · simpa [h0] using hp
        · simp only at hbits; omega
      rw [if_pos hread, Placed.agrees_of_readable hread]
      simp only [bind, Except.bind, ih hrest hp', Nat.add_assoc]
      by_cases hlit : field.usage = .literal
      · rw [if_pos hlit, collect_cons_literal (by simp [Placed.isLiteral, hlit])]
        by_cases hv : Placed.value (image.along cursor) ⟨place, field⟩ = field.value
        · simp [Placed.agrees, hv]
        · simp [Placed.agrees, Placed.isLiteral, hlit, hv]
      · rw [if_neg hlit, if_pos hnamed,
          collect_cons_of_not_literal (by simp [Placed.isLiteral, hlit])]
        simp only [Placed.agrees, Placed.isLiteral, beq_eq_false_iff_ne.2 hlit, Bool.not_false,
          Bool.true_or, Bool.true_and]
        by_cases ha : agreesWithin (image.along cursor) limit.toNat
            (placesFrom (place + field.bits.toNat) rest) = true
        · rw [if_pos ha, if_pos ha]
          by_cases hs : (place + (field.bits.toNat + (widthOf rest + 7))) / 8 ≤ limit.toNat
          · rw [if_pos hs, if_pos hs]
            rfl
          · rw [if_neg hs, if_neg hs]
        · rw [if_neg ha, if_neg ha]
    · obtain ⟨h0, hl⟩ := not_or.1 hread
      have hpos : 0 < field.bits.toNat := Nat.pos_of_ne_zero fun e => h0 (UInt8.toNat_inj.1 e)
      have hlit : decide (limit.toNat ≤ place / 8) = true := decide_eq_true (by omega)
      rw [if_neg hread, agreesWithin_beyond (by omega), hlit, Bool.true_or, Bool.and_true,
        if_pos rfl, if_neg (by omega)]
      rfl

end Read
end I8086
