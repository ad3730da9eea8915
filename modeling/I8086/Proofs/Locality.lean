import I8086.Proofs.Coverage

/-!
# Decoding is local

The formats are tried in order, and all but one of them in vain.  On the way the search reads bytes
that do not belong to the instruction which it finds in the end.  They do not matter, and neither
does the place where the instruction stands.

* `Format.WellFormed.operandsAt_congr` and the lemmas in front of it say that a format sees the
  bytes of its own instruction only.
* `Table.describes_congr` says the same of the search: a format that describes one of two streams
  which begin with the same instruction describes the other one, too, because all formats that
  describe a stream find an instruction of the same length in it.
* `decodeWithin_of_along_eq` is what this comes to for decoding, and `IsEncoding` what it comes to
  for the bytes of instructions: none of them begin with those of another one.
-/

set_option autoImplicit false

namespace I8086

/-! ## One format -/

namespace Format
namespace WellFormed

variable {format : Format} {bytes bytes' : Nat → UInt8}

/-- A field sees the byte in which it stands. -/
theorem value_congr (hw : format.WellFormed) (h : ∀ k < format.headSize, bytes' k = bytes k)
    {x : Placed} (hx : x ∈ format.places) : x.value bytes' = x.value bytes := by
  by_cases h0 : x.field.bits = 0
  · rw [Placed.value, Placed.value, if_pos h0, if_pos h0]
  · have hplace := hw.place_lt hx h0
    rw [Placed.value, Placed.value, bitsAt, bitsAt, h _ (by omega)]

theorem describes_congr (hw : format.WellFormed) (h : ∀ k < format.headSize, bytes' k = bytes k) :
    format.Describes bytes' ↔ format.Describes bytes := by
  refine forall₂_congr fun x hx => ?_
  rw [Placed.agrees, Placed.agrees, hw.value_congr h hx]

theorem fieldsAt_congr (hw : format.WellFormed) (h : ∀ k < format.headSize, bytes' k = bytes k) :
    format.fieldsAt bytes' = format.fieldsAt bytes := by
  refine List.map_congr_left fun x hx => ?_
  rw [Placed.contribution, Placed.contribution, hw.value_congr h (List.mem_filter.1 hx).1]

theorem sizeAt_congr (hw : format.WellFormed) (h : ∀ k < format.headSize, bytes' k = bytes k) :
    format.sizeAt bytes' = format.sizeAt bytes := by
  rw [sizeAt, sizeAt, hw.fieldsAt_congr h]

end WellFormed
end Format

theorem numberAt_congr {bytes bytes' : Nat → UInt8} {n : Nat} {wide : Bool}
    (h : ∀ k < n + (if wide then 2 else 1), bytes' k = bytes k) (signExtended : Bool) :
    numberAt bytes' n wide signExtended = numberAt bytes n wide signExtended := by
  cases wide with
  | false => exact congrArg (BitReader.extend signExtended) (h n (Nat.lt_succ_self n))
  | true => rw [numberAt, numberAt, h n (by simp), h (n + 1) (by simp)]

namespace Fields

variable {f : Fields} {bytes bytes' : Nat → UInt8} {n : Nat}

theorem dispAt_congr (h : ∀ k < n + f.dispSize, bytes' k = bytes k) :
    f.dispAt bytes' n = f.dispAt bytes n := by
  rw [dispSize] at h
  rw [dispAt, dispAt]
  split
  · rename_i hdisp
    rw [if_pos hdisp] at h
    exact numberAt_congr h _
  · rfl

theorem dataAt_congr (h : ∀ k < n + f.dataSize, bytes' k = bytes k) :
    f.dataAt bytes' n = f.dataAt bytes n := by
  rw [dataSize] at h
  rw [dataAt, dataAt]
  split
  · rename_i hdata
    rw [if_pos hdata] at h
    exact numberAt_congr h _
  · rfl

end Fields

/-- The operands are made of the bytes of the instruction. -/
theorem Format.WellFormed.operandsAt_congr {format : Format} (hw : format.WellFormed)
    {bytes bytes' : Nat → UInt8} (h : ∀ k < format.sizeAt bytes, bytes' k = bytes k) :
    format.operandsAt bytes' = format.operandsAt bytes := by
  have hsize : format.sizeAt bytes = format.headSize + (format.fieldsAt bytes).dispSize +
      (format.fieldsAt bytes).dataSize := (Nat.add_assoc ..).symm
  have hhead : ∀ k < format.headSize, bytes' k = bytes k := fun k hk => h k (by omega)
  rw [operandsAt, operandsAt, hw.sizeAt_congr hhead, hw.fieldsAt_congr hhead,
    Fields.dispAt_congr fun k hk => h k (by omega),
    Fields.dataAt_congr fun k hk => h k (by omega)]

/-! ## The whole table -/

namespace Table

variable {f g : Format} {bytes bytes' : Nat → UInt8}

/-- Streams that begin with the same instruction are described by the same formats. -/
theorem describes_congr (hf : f ∈ formats) (hd : f.Describes bytes)
    (h : ∀ k < f.sizeAt bytes, bytes' k = bytes k) (hg : g ∈ formats) :
    g.Describes bytes' ↔ g.Describes bytes := by
  have hw := wellFormed f hf
  have hhead : ∀ k < f.headSize, bytes' k = bytes k :=
    fun k hk => h k (Nat.lt_of_lt_of_le hk (Nat.le_add_right ..))
  have hd' : f.Describes bytes' := (hw.describes_congr hhead).2 hd
  have hcongr : g.headSize ≤ f.sizeAt bytes → (g.Describes bytes' ↔ g.Describes bytes) :=
    fun hle => (wellFormed g hg).describes_congr fun k hk => h k (Nat.lt_of_lt_of_le hk hle)
  -- whichever of the two streams `g` describes, it finds there what `f` finds
  constructor
  · intro hdescribes
    refine (hcongr ?_).1 hdescribes
    rw [← hw.sizeAt_congr hhead, sizeAt_eq_length hf hd', ← sizeAt_eq_length hg hdescribes]
    exact Nat.le_add_right ..
  · intro hdescribes
    refine (hcongr ?_).2 hdescribes
    rw [sizeAt_eq_length hf hd, ← sizeAt_eq_length hg hdescribes]
    exact Nat.le_add_right ..

end Table

/-! ## Decoding -/

/-- The same instruction at another address. -/
def Instruction.moveTo (i : Instruction) (address : UInt32) : Instruction := { i with address }

section Decode

variable {image image' : Image} {cursor cursor' : Cursor} {limit : UInt32}

/-- An attempt that fails at one of two places fails at the other one. -/
theorem Table.toOption_attempt_of_along_eq {f : Format} (hf : f ∈ formats)
    (hd : f.Describes (image.along cursor))
    (h : ∀ k < f.sizeAt (image.along cursor), image'.along cursor' k = image.along cursor k)
    {g : Format} (hg : g ∈ formats) :
    (g.attempt image' cursor' limit).toOption =
      (g.attempt image cursor limit).toOption.map (·.moveTo cursor'.address.toWord) := by
  have hw := wellFormed g hg
  obtain ⟨ops, hops, hiff⟩ := hw.attempt_eq_ok_iff image cursor
  obtain ⟨ops', hops', hiff'⟩ := hw.attempt_eq_ok_iff image' cursor'
  have hdescribes := describes_congr hf hd h hg
  by_cases hg' : g.Describes (image.along cursor)
  · have hsame : f.sizeAt (image.along cursor) = g.sizeAt (image.along cursor) :=
      (sizeAt_eq_length hf hd).trans (sizeAt_eq_length hg hg').symm
    rw [hsame] at h
    have hhead : ∀ k < g.headSize, image'.along cursor' k = image.along cursor k :=
      fun k hk => h k (Nat.lt_of_lt_of_le hk (Nat.le_add_right ..))
    have hsize := hw.sizeAt_congr hhead
    obtain rfl : ops' = ops := by
      rw [hw.operandsAt_congr h, hops] at hops'
      exact (Except.ok.inj hops').symm
    refine Option.ext fun i => ?_
    simp only [Option.map_eq_some_iff, toOption_eq_some_iff, hiff, hiff', hdescribes, hsize,
      hw.fieldsAt_congr hhead]
    constructor
    · rintro ⟨hok, rfl⟩
      exact ⟨_, ⟨hok, rfl⟩, rfl⟩
    · rintro ⟨j, ⟨hok, rfl⟩, rfl⟩
      exact ⟨hok, rfl⟩
  · have hnone : ∀ {image : Image} {cursor : Cursor}, ¬ g.Describes (image.along cursor) →
        (g.attempt image cursor limit).toOption = none := by
      intro image cursor hno
      refine Option.eq_none_iff_forall_ne_some.2 fun i hi => hno ?_
      exact hw.describes_of_attempt (toOption_eq_some_iff.1 hi)
    rw [hnone hg', hnone fun h' => hg' (hdescribes.1 h')]
    rfl

/-- What is decoded at a place depends on the bytes that are decoded, and only its address on where
they stand. -/
theorem decodeWithin_of_along_eq {p : Pending} {x : Decoded}
    (hx : decodeWithin p image cursor limit = .ok x)
    (h : ∀ k < x.instruction.size.toNat, image'.along cursor' k = image.along cursor k) :
    decodeWithin p image' cursor' limit =
      .ok ⟨x.instruction.moveTo cursor'.address.toWord, cursor'.advance x.instruction.size,
        x.pending⟩ := by
  rw [decodeWithin, decodeWith] at hx
  split at hx
  · cases hx
  · rename_i found hfound
    obtain rfl := Except.ok.inj hx
    obtain ⟨f, hf, ha⟩ := firstMatch_eq_ok hfound
    have hsize := (Table.wellFormed f hf).size_of_attempt ha
    have hattempt : ∀ g ∈ Table.formats, (g.attempt image' cursor' limit).toOption =
        (g.attempt image cursor limit).toOption.map (·.moveTo cursor'.address.toWord) :=
      fun g hg => Table.toOption_attempt_of_along_eq hf
        ((Table.wellFormed f hf).describes_of_attempt ha) (fun k hk => h k (hsize ▸ hk)) hg
    have hsome : (Table.formats.findSome? fun g => (g.attempt image cursor limit).toOption) =
        some found := by
      rw [firstMatch_eq] at hfound
      split at hfound
      · rename_i hi
        rw [hi, Except.ok.inj hfound]
      · cases hfound
    have hmoved : (Table.formats.findSome? fun g => (g.attempt image' cursor' limit).toOption) =
        some (found.moveTo cursor'.address.toWord) := by
      rw [findSome?_congr hattempt]
      exact List.map_findSome?.symm.trans (congrArg _ hsome)
    rw [decodeWithin, decodeWith, firstMatch_eq, hmoved]
    rfl

end Decode

/-! ## Encodings -/

/-- The bytes are those of an instruction: decoding finds one somewhere that has just these. -/
def IsEncoding (bytes : List UInt8) : Prop :=
  ∃ pending image cursor x, decodeOne pending image cursor = .ok x ∧
    image.stretch cursor x.instruction.size.toNat = bytes

theorem Image.along_eq_of_stretch_isPrefix {image image' : Image} {cursor cursor' : Cursor}
    {m n : Nat} (h : image.stretch cursor m <+: image'.stretch cursor' n) :
    ∀ k < m, image'.along cursor' k = image.along cursor k := by
  have hlength : m ≤ n := by simpa using h.length_le
  intro k hk
  have hget := List.prefix_iff_getElem?.1 h k (by simpa using hk)
  rw [← List.getElem?_eq_getElem, getElem?_stretch _ _ hk, getElem?_stretch _ _ (by omega)] at hget
  exact Option.some.inj hget

/-- No encoding begins with another one. -/
theorem IsEncoding.eq_of_isPrefix {bytes bytes' : List UInt8} (h : IsEncoding bytes)
    (h' : IsEncoding bytes') (hp : bytes <+: bytes') : bytes = bytes' := by
  obtain ⟨p, image, cursor, x, hx, rfl⟩ := h
  obtain ⟨q, image', cursor', y, hy, rfl⟩ := h'
  have hmoved := decodeWithin_of_along_eq hx (Image.along_eq_of_stretch_isPrefix hp)
  obtain ⟨f, hf, found, ha, hop, rfl, hany⟩ := decodeWithin_eq_ok hy
  have hsize : x.instruction.size = found.size :=
    congrArg (fun z : Decoded => z.instruction.size)
      (Except.ok.inj (hmoved.symm.trans (hany p)))
  refine hp.eq_of_length ?_
  rw [Image.length_stretch, Image.length_stretch, hsize]
  rfl

/-- **Decoding is local and does not depend on the place.**  Where the bytes of an instruction stand
again, in another image or at another cursor, the same instruction is decoded again if the same
prefixes wait; only its address is another one.  So no encoding begins with another one. -/
theorem decodeOne_local :
    (∀ (pending : Pending) (image image' : Image) (cursor cursor' : Cursor) (x : Decoded),
      decodeOne pending image cursor = .ok x →
      image'.stretch cursor' x.instruction.size.toNat =
        image.stretch cursor x.instruction.size.toNat →
      decodeOne pending image' cursor' =
        .ok ⟨x.instruction.moveTo cursor'.address.toWord, cursor'.advance x.instruction.size,
          x.pending⟩) ∧
    ∀ bytes bytes' : List UInt8, IsEncoding bytes → IsEncoding bytes' → bytes <+: bytes' →
      bytes = bytes' := by
  refine ⟨fun pending image image' cursor cursor' x hx hbytes => ?_,
    fun bytes bytes' h h' hp => h.eq_of_isPrefix h' hp⟩
  exact decodeWithin_of_along_eq hx
    (Image.along_eq_of_stretch_isPrefix ⟨[], (List.append_nil _).trans hbytes.symm⟩)

/-- A `mov` that continues at the start of its segment, and the same `mov` across the end of the
image. -/
theorem decodeOne_local_across_ends :
    let bytes : List UInt8 := [0xC7, 0x86, 0x34, 0x12, 0x78, 0x56]
    let image := Image.zero.layOut ⟨0xF000, 0xFFFE⟩ bytes
    let image' := Image.zero.layOut ⟨0xFFFF, 0x000E⟩ bytes
    (∃ x, decodeOne ⟨.lock, .es⟩ image ⟨0xF000, 0xFFFE⟩ = .ok x ∧ x.instruction.size = 6 ∧
      image'.stretch ⟨0xFFFF, 0x000E⟩ x.instruction.size.toNat =
        image.stretch ⟨0xF000, 0xFFFE⟩ x.instruction.size.toNat ∧
      decodeOne ⟨.lock, .es⟩ image' ⟨0xFFFF, 0x000E⟩ =
        .ok ⟨x.instruction.moveTo 0xFFFFE, ⟨0xFFFF, 0x0014⟩, x.pending⟩) ∧
    IsEncoding bytes ∧ ∀ n < 6, ¬ IsEncoding (bytes.take n) := by
  intro bytes image image'
  have hbytes : image.stretch ⟨0xF000, 0xFFFE⟩ 6 = bytes := Image.stretch_layOut _ _ (by decide)
  have hbytes' : image'.stretch ⟨0xFFFF, 0x000E⟩ 6 = bytes := Image.stretch_layOut _ _ (by decide)
  have hfirst : image.along ⟨0xF000, 0xFFFE⟩ 0 = 0xC7 := Image.along_layOut (by decide) (by decide)
  have hsecond : image.along ⟨0xF000, 0xFFFE⟩ 1 = 0x86 := Image.along_layOut (by decide) (by decide)
  obtain ⟨x, hx, hsize, -⟩ := @decodeWithin_of_isEncoding image ⟨0xF000, 0xFFFE⟩ ⟨.lock, .es⟩
    (by rw [hfirst, hsecond]; rfl)
  rw [hfirst, hsecond, show Opcode.length 0xC7 0x86 = 6 by decide] at hsize
  obtain ⟨hlocal, hfree⟩ := decodeOne_local
  have hsix : x.instruction.size = 6 := UInt32.toNat_inj.1 hsize
  have hencoding : IsEncoding bytes :=
    ⟨_, image, _, x, hx, (congrArg (image.stretch _) hsize).trans hbytes⟩
  have hsame : image'.stretch ⟨0xFFFF, 0x000E⟩ x.instruction.size.toNat =
      image.stretch ⟨0xF000, 0xFFFE⟩ x.instruction.size.toNat := by
    rw [hsix]
    exact hbytes'.trans hbytes.symm
  refine ⟨⟨x, hx, hsix, hsame, ?_⟩, hencoding, fun n hn h => ?_⟩
  · rw [hlocal _ _ _ _ _ x hx hsame, hsix]
    rfl
  · have htake : bytes.take n <+: bytes := List.take_prefix n bytes
    have hlength := congrArg List.length (hfree _ _ h hencoding htake)
    rw [List.length_take, show bytes.length = 6 from rfl] at hlength
    omega

end I8086
