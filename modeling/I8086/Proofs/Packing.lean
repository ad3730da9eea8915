import I8086.Proofs.OpcodeMap

/-!
# Writing an instruction and reading it back

The encoder that belongs to the table.  `Format.pack` writes the bit fields of a format into its
head, and what the fields call for follows as displacement and data.

* `value_of_pack` says that every field of the head reads what was written into it, literals
  included, so a format describes what it packs.
* `Image.along_layOut` places bytes along a cursor.
* `decodeOne_pack` is the round trip over the whole table.  The one encoding that is not read back
  as it was written is `xchg ax, ax`, which is `nop`.
-/

set_option autoImplicit false

namespace I8086

/-! ## Packing -/

/-- The value that is written for a field: its own if it is a literal or implicit, else the one
assigned to its place. -/
def Placed.assigned (assignment : Nat → UInt32) (x : Placed) : UInt32 :=
  if x.isLiteral || x.field.bits == 0 then x.field.value else assignment x.place

/-- Shifts the stream fields in one after the other, so that the first one ends up on top. -/
def packNumber (value : Placed → UInt32) (acc : Nat) : List Placed → Nat
  | [] => acc
  | x :: rest =>
    packNumber value
      (if x.field.bits = 0 then acc else acc * 2 ^ x.field.bits.toNat + (value x).toNat) rest

namespace Format

/-- Every stream field that is not a literal is assigned a value that fits into its bits. -/
def InRange (format : Format) (assignment : Nat → UInt32) : Prop :=
  ∀ x ∈ format.places, x.field.bits ≠ 0 → x.isLiteral = false →
    (assignment x.place).toNat < 2 ^ x.field.bits.toNat

instance (format : Format) (assignment : Nat → UInt32) : Decidable (format.InRange assignment) :=
  inferInstanceAs (Decidable (∀ x ∈ format.places, x.field.bits ≠ 0 → x.isLiteral = false →
    (assignment x.place).toNat < 2 ^ x.field.bits.toNat))

/-- The head, most significant bits first. -/
def pack (format : Format) (assignment : Nat → UInt32) : List UInt8 :=
  let number := packNumber (Placed.assigned assignment) 0 format.places
  (List.range format.headSize).map fun k =>
    .ofNat (number / 2 ^ (8 * (format.headSize - 1 - k)))

/-- What the fields contribute under an assignment. -/
def assignedFields (format : Format) (assignment : Nat → UInt32) : Fields :=
  collect (Placed.assigned assignment) format.places

@[simp] theorem length_pack (format : Format) (assignment : Nat → UInt32) :
    (format.pack assignment).length = format.headSize := by
  rw [pack, List.length_map, List.length_range]

end Format

/-! ## The packed number -/

section Number

variable {value : Placed → UInt32} {fields : List Field} {place acc : Nat}

/-- What was shifted in first is still there on top. -/
theorem packNumber_div (h : ∀ x ∈ placesFrom place fields, x.field.bits ≠ 0 →
      (value x).toNat < 2 ^ x.field.bits.toNat) :
    packNumber value acc (placesFrom place fields) / 2 ^ widthOf fields = acc := by
  induction fields generalizing place acc with
  | nil => rw [placesFrom, packNumber, widthOf_nil, Nat.pow_zero, Nat.div_one]
  | cons field rest ih =>
    have hrest := fun x hx => h x (List.mem_cons_of_mem _ hx)
    rw [placesFrom, packNumber, widthOf_cons, Nat.add_comm field.bits.toNat, Nat.pow_add,
      ← Nat.div_div_eq_div_mul, ih hrest]
    by_cases h0 : field.bits = 0
    · rw [if_pos h0, h0]
      exact Nat.div_one acc
    · have hv := h ⟨place, field⟩ (List.mem_cons_self ..) h0
      rw [if_neg h0, Nat.mul_comm, Nat.mul_add_div (Nat.two_pow_pos _), Nat.div_eq_of_lt hv,
        Nat.add_zero]

/-- Every stream field has its value at its place. -/
theorem packNumber_div_mod (h : ∀ x ∈ placesFrom place fields, x.field.bits ≠ 0 →
      (value x).toNat < 2 ^ x.field.bits.toNat) {x : Placed} (hx : x ∈ placesFrom place fields)
    (h0 : x.field.bits ≠ 0) :
    packNumber value acc (placesFrom place fields) /
        2 ^ (place + widthOf fields - x.place - x.field.bits.toNat) % 2 ^ x.field.bits.toNat =
      (value x).toNat := by
  induction fields generalizing place acc with
  | nil => cases hx
  | cons field rest ih =>
    have hrest := fun x hx => h x (List.mem_cons_of_mem _ hx)
    rw [placesFrom, packNumber, widthOf_cons]
    rcases List.mem_cons.1 hx with rfl | hx
    · have hend : place + (field.bits.toNat + widthOf rest) - place - field.bits.toNat =
          widthOf rest := by omega
      simp only at h0 ⊢
      rw [hend, packNumber_div hrest, if_neg h0, Nat.mul_comm, Nat.mul_add_mod]
      exact Nat.mod_eq_of_lt (h ⟨place, field⟩ (List.mem_cons_self ..) h0)
    · rw [← Nat.add_assoc]
      exact ih hrest hx

end Number

/-! ## Reading the head back -/

theorem mod_div_mod {n s w : Nat} (h : s + w ≤ 8) :
    n % 256 / 2 ^ s % 2 ^ w = n / 2 ^ s % 2 ^ w := by
  have hsplit : (256 : Nat) = 2 ^ s * (2 ^ w * 2 ^ (8 - s - w)) := by
    rw [← Nat.pow_add, ← Nat.pow_add, show s + (w + (8 - s - w)) = 8 by omega]
  rw [hsplit, Nat.mod_mul_right_div_self, Nat.mod_mul_right_mod]

/-- **A field reads what was written into it.** -/
theorem value_of_pack {format : Format} (hw : format.WellFormed) {assignment : Nat → UInt32}
    (hr : ∀ x ∈ format.places, x.field.bits ≠ 0 →
      (x.assigned assignment).toNat < 2 ^ x.field.bits.toNat)
    {bytes : Nat → UInt8}
    (hb : ∀ k (hk : k < (format.pack assignment).length), bytes k = (format.pack assignment)[k])
    {x : Placed} (hx : x ∈ format.places) : x.value bytes = x.assigned assignment := by
  by_cases h0 : x.field.bits = 0
  · simp [Placed.value, Placed.assigned, h0]
  · have hplace := hw.place_lt hx h0
    have hend := place_add_le_of_mem hx
    have hfits := (Placed.fits_iff.1 (hw.fits x hx)).2
    have hwidth : widthOf format.fields = 8 * format.headSize := by
      rcases hw.width with h | h <;> rw [Format.headSize, h]
    have hbyte : (bytes (x.place / 8)).toNat =
        packNumber (Placed.assigned assignment) 0 format.places /
          2 ^ (8 * (format.headSize - 1 - x.place / 8)) % 256 := by
      rw [hb _ (by rw [Format.length_pack]; omega)]
      simp only [Format.pack, List.getElem_map, List.getElem_range, UInt8.toNat_ofNat']
    have hshift : 8 * (format.headSize - 1 - x.place / 8) +
        (8 - x.place % 8 - x.field.bits.toNat) =
        0 + widthOf format.fields - x.place - x.field.bits.toNat := by omega
    rw [Placed.value, if_neg h0, bitsAt, hbyte, mod_div_mod (by omega), Nat.div_div_eq_div_mul,
      ← Nat.pow_add, hshift, Format.places, packNumber_div_mod hr hx h0, UInt32.ofNat_toNat]

/-! ## Bytes along a cursor -/

namespace Cursor

theorem addressAt_add (c : Cursor) (m n : Nat) :
    c.addressAt (.ofNat (m + n)) = (c.advance (.ofNat m)).addressAt (.ofNat n) := by
  have h : c.offset + UInt16.ofNat (m + n) = c.offset + (UInt32.ofNat m).toUInt16 + .ofNat n := by
    rw [UInt16.ofNat_add, ← UInt16.add_assoc, UInt32.toUInt16_ofNat']
  rw [addressAt, addressAt, Address.ofSegment, Address.ofSegment, h]
  rfl

theorem addressAt_succ (c : Cursor) (n : Nat) :
    c.addressAt (.ofNat (n + 1)) = (c.advance 1).addressAt (.ofNat n) := by
  rw [Nat.add_comm, addressAt_add]
  rfl

/-- A segment has 65536 different addresses. -/
theorem addressAt_ne (c : Cursor) {m n : Nat} (hmn : m < n) (hn : n < 65536) :
    c.addressAt (.ofNat m) ≠ c.addressAt (.ofNat n) := by
  intro h
  have h' := congrArg BitVec.toNat h
  rw [addressAt, addressAt, Address.toNat_ofSegment, Address.toNat_ofSegment,
    UInt16.toNat_ofNat', UInt16.toNat_ofNat', imageSize] at h'
  omega

end Cursor

namespace Image

/-- Writes bytes from a cursor on; the cursor wraps inside its segment. -/
def layOut (image : Image) (cursor : Cursor) : List UInt8 → Image
  | [] => image
  | byte :: rest => (image.set cursor.address byte).layOut (cursor.advance 1) rest

theorem along_succ (image : Image) (cursor : Cursor) (n : Nat) :
    image.along cursor (n + 1) = image.along (cursor.advance 1) n := by
  rw [along, along, Cursor.addressAt_succ]

theorem get_layOut_of_ne {image : Image} {cursor : Cursor} {bytes : List UInt8} {a : Address}
    (h : ∀ k < bytes.length, cursor.addressAt (.ofNat k) ≠ a) :
    (image.layOut cursor bytes).get a = image.get a := by
  induction bytes generalizing image cursor with
  | nil => rfl
  | cons byte rest ih =>
    have hrest : ∀ k < rest.length, (cursor.advance 1).addressAt (.ofNat k) ≠ a := fun k hk =>
      cursor.addressAt_succ k ▸ h (k + 1) (Nat.succ_lt_succ hk)
    rw [layOut, ih hrest]
    exact get_set_of_ne _ _ (h 0 (Nat.zero_lt_succ _))

theorem along_layOut {image : Image} {cursor : Cursor} {bytes : List UInt8}
    (hlen : bytes.length ≤ 65536) {k : Nat} (hk : k < bytes.length) :
    (image.layOut cursor bytes).along cursor k = bytes[k] := by
  induction bytes generalizing image cursor k with
  | nil => cases hk
  | cons byte rest ih =>
    rw [List.length_cons] at hlen hk
    cases k with
    | zero =>
      -- the later bytes go to other addresses of the segment
      have hne : ∀ j < rest.length,
          (cursor.advance 1).addressAt (.ofNat j) ≠ cursor.address := fun j hj =>
        cursor.addressAt_succ j ▸ (cursor.addressAt_ne (Nat.succ_pos j) (by omega)).symm
      rw [along_zero, layOut, get_layOut_of_ne hne, get_set_self, List.getElem_cons_zero]
    | succ k =>
      rw [along_succ, layOut, ih (by omega) (by omega), List.getElem_cons_succ]

end Image

/-! ## The round trip -/

namespace Table

variable {f : Format} {assignment : Nat → UInt32}

theorem assigned_lt (hf : f ∈ formats) (hr : f.InRange assignment) {x : Placed}
    (hx : x ∈ f.places) (h0 : x.field.bits ≠ 0) :
    (x.assigned assignment).toNat < 2 ^ x.field.bits.toNat := by
  rw [Placed.assigned, beq_eq_false_iff_ne.2 h0, Bool.or_false]
  cases hlit : x.isLiteral with
  | true => exact (wellFormed f hf).literals x hx hlit h0
  | false => exact hr x hx h0 hlit

/-- What an entry packs, it describes, and its fields contribute what was assigned to them. -/
theorem describes_pack (hf : f ∈ formats) (hr : f.InRange assignment) {bytes : Nat → UInt8}
    (hb : ∀ k (hk : k < (f.pack assignment).length), bytes k = (f.pack assignment)[k]) :
    f.Describes bytes ∧ f.fieldsAt bytes = f.assignedFields assignment := by
  have hvalue : ∀ x ∈ f.places, x.value bytes = x.assigned assignment := fun x hx =>
    value_of_pack (wellFormed f hf) (fun x hx => assigned_lt hf hr hx) hb hx
  refine ⟨fun x hx => ?_, List.map_congr_left fun x hx => ?_⟩
  · rw [Placed.agrees, hvalue x hx, Placed.assigned]
    cases x.isLiteral <;> simp
  · rw [Placed.contribution, Placed.contribution, hvalue x (List.mem_filter.1 hx).1]

theorem nop_mem : nop ∈ formats := nop_sublist_formats.subset (by simp)

theorem xchgAccumulator_mem : xchgAccumulator ∈ formats := nop_sublist_formats.subset (by simp)

/-- Of what `xchg` with the accumulator describes, `nop` takes the register with number zero. -/
theorem describes_nop_iff {bytes : Nat → UInt8} (h : xchgAccumulator.Describes bytes) :
    nop.Describes bytes ↔ (xchgAccumulator.fieldsAt bytes).value .reg = 0 := by
  have hbyte : ∀ b : UInt8, xchgAccumulator.fitsByte 0 b = true →
      (nop.fitsByte 0 b = true ↔ (xchgAccumulator.fieldsAt fun _ => b).value .reg = 0) :=
    forall_byte (by decide +kernel)
  have hxchg := ((describes_iff xchgAccumulator_mem).1 h).1
  have hfields : xchgAccumulator.fieldsAt bytes = xchgAccumulator.fieldsAt fun _ => bytes 0 :=
    collect_value_of_byte 0 (by decide)
  have hsecond : nop.fitsByte 1 (bytes 1) = true := by
    rw [Format.fitsByte, show nop.mask 1 = 0 from rfl, Nat.and_zero]
    rfl
  rw [describes_iff nop_mem, hfields, ← hbyte (bytes 0) hxchg]
  exact and_iff_left hsecond

theorem attempt_nop {image : Image} {cursor : Cursor}
    (h : nop.Describes (image.along cursor)) :
    nop.attempt image cursor 1048576 = .ok ⟨cursor.address.toWord, 1, .nop, .none, .empty⟩ := by
  obtain ⟨ops, hops, hiff⟩ := (wellFormed nop nop_mem).attempt_eq_ok_iff image cursor
  have hempty : nop.operandsAt (image.along cursor) = .ok .empty := rfl
  have hsize : nop.sizeAt (image.along cursor) = 1 := rfl
  have hmodifiers : (nop.fieldsAt (image.along cursor)).modifiers = .none :=
    show Fields.modifiers [] = .none by decide
  rw [hempty, Except.ok.injEq] at hops
  subst hops
  refine (hiff 1048576 _).2 ⟨⟨h, hsize ▸ by decide⟩, ?_⟩
  rw [hsize, hmodifiers]
  rfl

end Table

theorem decodeOne_of_attempt {f : Format} (hf : f ∈ Table.formats) {image : Image}
    {cursor : Cursor} {i : Instruction} (h : f.attempt image cursor 1048576 = .ok i)
    (hfirst : f = Table.xchgAccumulator → ¬ Table.nop.Describes (image.along cursor))
    (pending : Pending) :
    decodeOne pending image cursor =
      .ok ⟨pending.attach i, cursor.advance i.size, pending.after (pending.attach i)⟩ := by
  have hnop : f = Table.xchgAccumulator →
      (Table.nop.attempt image cursor 1048576).toOption = none := fun he =>
    Option.eq_none_iff_forall_ne_some.2 fun j hj => hfirst he
      ((Table.wellFormed _ Table.nop_mem).describes_of_attempt (toOption_eq_some_iff.1 hj))
  rw [decodeOne, decodeWithin, decodeWith, firstMatch_of_attempt hf h hnop]
  rfl

/-- **The table reads back what it writes.** Every entry, with any values in its fields and any
displacement and data behind its head, is decoded at any cursor of any image as the instruction
that the entry itself makes of these bytes, with the prefixes that wait.  Only `xchg` of the
accumulator with itself is decoded as `nop`. -/
theorem decodeOne_pack (format : Format) (hf : format ∈ Table.formats)
    (assignment : Nat → UInt32) (hr : format.InRange assignment) (disp data : List UInt8)
    (hdisp : disp.length = (format.assignedFields assignment).dispSize)
    (hdata : data.length = (format.assignedFields assignment).dataSize)
    (pending : Pending) (image : Image) (cursor : Cursor) :
    let bytes := format.pack assignment ++ disp ++ data
    let written := image.layOut cursor bytes
    ∃ i, format.attempt written cursor 1048576 = .ok i ∧ i.operation = format.operation ∧
      i.size.toNat = bytes.length ∧
      if format = Table.xchgAccumulator ∧ (format.assignedFields assignment).value .reg = 0 then
        decodeOne pending written cursor =
          .ok ⟨pending.attach ⟨cursor.address.toWord, 1, .nop, .none, .empty⟩, cursor.advance 1,
            .clear⟩
      else
        decodeOne pending written cursor =
          .ok ⟨pending.attach i, cursor.advance i.size, pending.after (pending.attach i)⟩ := by
  intro bytes written
  have hw := Table.wellFormed format hf
  have hlen : bytes.length = format.headSize + (format.assignedFields assignment).tailSize := by
    rw [List.length_append, List.length_append, Format.length_pack, hdisp, hdata, Nat.add_assoc]
    rfl
  have htail := (format.assignedFields assignment).tailSize_le
  have hhead := hw.headSize_le
  have hbytes : ∀ k (hk : k < (format.pack assignment).length),
      written.along cursor k = (format.pack assignment)[k] := by
    intro k hk
    have hhead : k < (format.pack assignment ++ disp).length := by
      rw [List.length_append]
      exact Nat.lt_add_right _ hk
    have hk' : k < bytes.length := by
      rw [List.length_append]
      exact Nat.lt_add_right _ hhead
    rw [Image.along_layOut (by omega) hk', List.getElem_append_left hhead,
      List.getElem_append_left hk]
  obtain ⟨hd, hfields⟩ := Table.describes_pack hf hr hbytes
  have hsize : format.sizeAt (written.along cursor) = bytes.length := by
    rw [Format.sizeAt, hfields, hlen]
  obtain ⟨i, hattempt, hop⟩ := hw.attempt_isOk hd
  refine ⟨i, hattempt, hop, (hw.size_of_attempt hattempt).trans hsize, ?_⟩
  split
  · rename_i hexception
    obtain ⟨rfl, hreg⟩ := hexception
    have hnop := (Table.describes_nop_iff hd).2 (hfields ▸ hreg)
    exact decodeOne_of_attempt Table.nop_mem (Table.attempt_nop hnop)
      (fun h => absurd h (by decide)) pending
  · rename_i hother
    refine decodeOne_of_attempt hf hattempt (fun he hnop => hother ⟨he, ?_⟩) pending
    subst he
    rw [← hfields]
    exact (Table.describes_nop_iff hd).1 hnop

/-- A `mov` with displacement and data that continues at the start of its segment, after a waiting
`lock`, and `xchg ax, ax`. -/
theorem decodeOne_pack_mov_xchg :
    (∃ i, decodeOne ⟨.lock, .es⟩
        (Image.zero.layOut ⟨0xF000, 0xFFFE⟩ [0xC7, 0x86, 0x34, 0x12, 0x78, 0x56])
        ⟨0xF000, 0xFFFE⟩ = .ok ⟨Pending.attach ⟨.lock, .es⟩ i, ⟨0xF000, 4⟩, .clear⟩ ∧
      i.operation = .mov ∧ i.size.toNat = 6) ∧
    decodeOne .clear (Image.zero.layOut ⟨0, 0⟩ [0x90]) ⟨0, 0⟩ =
      .ok ⟨⟨0, 1, .nop, .none, .empty⟩, ⟨0, 1⟩, .clear⟩ := by
  constructor
  · obtain ⟨i, -, hop, hsize, hdecode⟩ := decodeOne_pack
      ⟨.mov, [Table.lit 7 0b1100011, Table.w, Table.mod, Table.lit 3 0b000, Table.rm, Table.data,
        Table.dataIfWide, Table.fixedD 0]⟩ (by decide +kernel)
      (fun place => if place = 7 then 1 else if place = 8 then 2 else if place = 13 then 6 else 0)
      (by decide) [0x34, 0x12] [0x78, 0x56] (by decide) (by decide) ⟨.lock, .es⟩ .zero
      ⟨0xF000, 0xFFFE⟩
    rw [if_neg (by decide)] at hdecode
    have h6 : i.size = 6 := UInt32.toNat_inj.1 hsize
    refine ⟨i, hdecode.trans ?_, hop, hsize⟩
    rw [h6, Pending.after, show (Pending.attach ⟨.lock, .es⟩ i).operation = .mov from hop]
    rfl
  · obtain ⟨i, -, -, -, hdecode⟩ := decodeOne_pack Table.xchgAccumulator (by decide +kernel)
      (fun _ => 0) (by decide) [] [] (by decide) (by decide) .clear .zero ⟨0, 0⟩
    rw [if_pos (by decide)] at hdecode
    exact hdecode

end I8086
