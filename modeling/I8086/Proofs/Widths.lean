import I8086.Proofs.NoFault

/-!
# How wide the operands of an instruction are

The machine reads and writes operands of one or two bytes.  A destination register decides which,
and without one the `wide` modifier does; the second operand is read at the width of the first, and
a register is read at its own width all the same.  None of this goes wrong for a decoded
instruction, since all of it comes from the same `w` field.

* `Instruction.Sized` says that the registers are as wide as the modifier says, and
  `sized_of_decodeOne` that decoding an operation with two operands gives such an instruction.
* `Instruction.Sized.width_first` and `Instruction.Sized.read_lt` draw the two conclusions: the
  modifier decides, and what is read does not exceed the width.
-/

set_option autoImplicit false

namespace I8086

/-! ## Sign extension -/

theorem setWidth_signExtend {w m n : Nat} (x : BitVec w) (h : m ≤ n) :
    (x.signExtend n).setWidth m = x.signExtend m := by
  refine BitVec.eq_of_getLsbD_eq fun i hi => ?_
  have hn : i < n := Nat.lt_of_lt_of_le hi h
  simp only [BitVec.getLsbD_setWidth, BitVec.getLsbD_signExtend, hi, hn, decide_true, Bool.true_and]

/-- A sign extended byte, cut to a word. -/
theorem toUInt16_extend (b : UInt8) :
    (BitReader.extend true b).toUInt16 = b.toInt8.toInt16.toUInt16 := by
  rw [← UInt16.toBitVec_inj]
  exact @setWidth_signExtend 8 16 32 b.toBitVec (by decide)

/-- A word that is sign extended and cut to a word again is the same word. -/
theorem toUInt16_toInt32 (d : Int16) : d.toInt32.toUInt32.toUInt16 = d.toUInt16 := by
  rw [← UInt16.toBitVec_inj]
  exact (@setWidth_signExtend 16 16 32 d.toBitVec (by decide)).trans (BitVec.signExtend_eq _)

/-! ## The modifier -/

namespace Modifiers

theorem has_wide (m : Modifiers) : m.has .wide = m.bits.toNat.testBit 4 :=
  has_eq_testBit rfl m

theorem has_wide_union (m n : Modifiers) :
    (m.union n).has .wide = (m.has .wide || n.has .wide) :=
  has_union (k := 4) rfl m n

end Modifiers

theorem Fields.has_wide_modifiers (f : Fields) : f.modifiers.has .wide = f.flag .w := by
  rw [modifiers]
  cases f.flag .w <;> cases f.flag .far <;> cases f.present .z && !f.flag .z <;> rfl

/-- Prefixes say nothing about the width of what is behind them. -/
theorem Pending.has_wide_through (calls : List (Image × Cursor)) :
    (clear.through calls).modifiers.has .wide = false := by
  have hnone := Prefix.union_inter_ofEncoding (prefixRun (decodeSeries clear calls))
  have hbit := congrArg (fun m : Modifiers => m.bits.toNat.testBit 4) hnone
  rw [(through_eq_run (.inl rfl) calls).1, Modifiers.has_wide]
  rw [Modifiers.testBit_inter, show Modifiers.ofEncoding.bits.toNat.testBit 4 = true from rfl,
    Bool.and_true] at hbit
  exact hbit

/-! ## Registers -/

namespace Fields

theorem count_registerPart (field : UInt32) (wide : Bool) :
    (registerPart field wide).count = if wide then 2 else 1 := by
  unfold registerPart
  split <;> rfl

theorem count_segmentPart (field : UInt32) : (segmentPart field).count = 2 := by
  rw [segmentPart]
  split <;> rfl

/-- The registers are all as wide as `w` says: the segment registers only stand where the format
sets it, and nothing else asks for a width of its own. -/
structure OneWidth (f : Fields) : Prop where
  sr : f.present .sr = true → f.flag .w = true
  rm : f.present .rmAlwaysWide = false
  v : f.present .v = false

variable {f : Fields} {part : RegisterPart}

theorem OneWidth.count_regOperand (hw : f.OneWidth) (h : f.regOperand = some (.register part)) :
    part.count = if f.flag .w then 2 else 1 := by
  rw [regOperand] at h
  split at h
  · rename_i hsr
    cases h
    rw [count_segmentPart, hw.sr hsr]
    rfl
  · split at h
    · cases h
      exact count_registerPart _ _
    · cases h

theorem OneWidth.count_rmOperand (hw : f.OneWidth) {displacement : Int16}
    (h : f.rmOperand displacement = some (.register part)) :
    part.count = if f.flag .w then 2 else 1 := by
  rw [rmOperand, flag_eq_false_of_not_present hw.rm, Bool.or_false] at h
  split at h
  · cases h
  · split at h
    · cases h
      exact count_registerPart _ _
    · cases h

theorem OneWidth.not_mem_trailing (hw : f.OneWidth) {displacement : Int16} {data size : UInt32} :
    Operand.register part ∉ f.trailing displacement data size := by
  rw [trailing, hw.v, List.mem_filterMap]
  rintro ⟨x, hx, h⟩
  obtain rfl : x = some (.register part) := h
  simp only [List.mem_cons, List.not_mem_nil, or_false] at hx
  rcases hx with h | h | h | h
  · cases h
  all_goals
    split at h
    · cases h
    · cases h

theorem OneWidth.count_operands (hw : f.OneWidth) {disp data size : UInt32} {ops : Operands}
    (h : f.operands disp data size = .ok ops) (hpart : Operand.register part ∈ ops.toList) :
    part.count = if f.flag .w then 2 else 1 := by
  rw [operands] at h
  split at h
  · cases h
    rcases Operands.mem_toList_pair hpart with h | h
    · cases h
    · cases h
  · rcases mem_toList_of_placeAll h hpart with hslot | htrailing
    · split at hslot <;> rcases Operands.mem_toList_pair hslot with hpart | hpart
      · exact hw.count_regOperand hpart
      · exact hw.count_rmOperand hpart
      · exact hw.count_rmOperand hpart
      · exact hw.count_regOperand hpart
    · exact absurd htrailing hw.not_mem_trailing

end Fields

/-! ## Formats -/

/-- Each format of the operations that read two operands gives its registers one width, and the
short jumps are all encoded alike. -/
structure Format.Plain (format : Format) : Prop where
  registers : format.operation.readsTwo = true →
    ((format.fieldsAt fun _ => 0).present .sr = true →
      (format.fieldsAt fun _ => 0).flag .w = true) ∧
    (format.fieldsAt fun _ => 0).present .rmAlwaysWide = false ∧
    (format.fieldsAt fun _ => 0).present .v = false
  jump : format.operation.isShortJump = true →
    format = Table.jump format.operation ((format.fields.map Field.value).headD 0)

instance (format : Format) : Decidable format.Plain :=
  decidable_of_iff (_ ∧ _) ⟨fun h => ⟨h.1, h.2⟩, fun h => ⟨h.registers, h.jump⟩⟩

theorem Table.plain : ∀ f ∈ formats, f.Plain := by
  decide +kernel

theorem Format.Plain.oneWidth {format : Format} (h : format.Plain)
    (hop : format.operation.readsTwo = true) (bytes : Nat → UInt8) :
    (format.fieldsAt bytes).OneWidth := by
  have hpresent : ∀ u, (format.fieldsAt bytes).present u =
      (format.fieldsAt fun _ => 0).present u := by
    intro u
    rw [present_fieldsAt, present_fieldsAt]
  obtain ⟨hsr, hrm, hv⟩ := h.registers hop
  exact ⟨fun h => flag_fieldsAt (hsr (hpresent .sr ▸ h)) bytes, (hpresent _).trans hrm,
    (hpresent _).trans hv⟩

/-! ## Instructions -/

namespace Instruction

/-- The width that the encoding of an instruction gives to its operands, in bytes. -/
def encodedWidth (i : Instruction) : UInt8 :=
  if i.modifiers.has .wide then 2 else 1

/-- All registers among the operands have that width. -/
def Sized (i : Instruction) : Prop :=
  ∀ part, Operand.register part ∈ i.operands.toList → part.count = i.encodedWidth

end Instruction

theorem Table.sized_of_attempt {f : Format} {image : Image} {cursor : Cursor} {limit : UInt32}
    {i : Instruction} (hf : f ∈ formats) (hop : f.operation.readsTwo = true)
    (h : f.attempt image cursor limit = .ok i) : i.Sized := by
  obtain ⟨ops, hops, hiff⟩ := (wellFormed f hf).attempt_eq_ok_iff image cursor
  obtain ⟨-, rfl⟩ := (hiff limit i).1 h
  intro part hpart
  rw [Instruction.encodedWidth, Fields.has_wide_modifiers]
  exact ((plain f hf).oneWidth hop _).count_operands hops hpart

theorem Instruction.Sized.attach {i : Instruction} (h : i.Sized) {p : Pending}
    (hp : p.modifiers.has .wide = false) : (p.attach i).Sized := by
  intro part hpart
  have hwidth : (p.attach i).encodedWidth = i.encodedWidth := by
    rw [encodedWidth, show (p.attach i).modifiers = i.modifiers.union p.modifiers from rfl,
      Modifiers.has_wide_union, hp, Bool.or_false]
    rfl
  rw [Pending.operands_attach, Operands.toList_map, List.mem_map] at hpart
  obtain ⟨x, hx, hsegment⟩ := hpart
  cases x with
  | register part' =>
    cases hsegment
    exact (h part hx).trans hwidth.symm
  | memory place => cases hsegment
  | immediate value => cases hsegment
  | relative distance => cases hsegment

theorem sized_of_decodeOne {calls : List (Image × Cursor)} {image : Image} {cursor : Cursor}
    {x : Decoded} (h : decodeOne (Pending.clear.through calls) image cursor = .ok x)
    (hop : x.instruction.operation.readsTwo = true) : x.instruction.Sized := by
  obtain ⟨f, hf, found, ha, hfound, rfl, -⟩ := decodeWithin_eq_ok h
  have hreads : f.operation.readsTwo = true := hfound ▸ hop
  exact (Table.sized_of_attempt hf hreads ha).attach (Pending.has_wide_through calls)

/-! ## The machine -/

namespace Flags

/-- Operands of `width` bytes are numbers of `n` bits. -/
def Fits (width : UInt8) (n : Nat) : Prop := width = 1 ∧ n = 8 ∨ width = 2 ∧ n = 16

theorem Fits.toNat_and_widthMask {width : UInt8} {n : Nat} (h : Fits width n) (x : UInt32) :
    (x &&& widthMask width).toNat = x.toNat % 2 ^ n := by
  rw [← Nat.and_two_pow_sub_one_eq_mod, UInt32.toNat_and]
  rcases h with ⟨rfl, rfl⟩ | ⟨rfl, rfl⟩
  · rfl
  · rfl

end Flags

theorem Instruction.fits_encodedWidth (i : Instruction) :
    Flags.Fits i.encodedWidth (if i.modifiers.has .wide then 16 else 8) := by
  rw [encodedWidth]
  cases i.modifiers.has .wide with
  | true => exact .inr ⟨rfl, rfl⟩
  | false => exact .inl ⟨rfl, rfl⟩

theorem Registers.toNat_get_lt {part : RegisterPart} {n : Nat} (h : Flags.Fits part.count n)
    (r : Registers) : (r.get part).toNat < 2 ^ n := by
  rw [get, RegisterPart.isWide]
  rcases h with ⟨hcount, rfl⟩ | ⟨hcount, rfl⟩
  · rw [hcount, if_neg (by decide), UInt16.toNat_and]
    exact Nat.lt_of_le_of_lt Nat.and_le_right (by decide)
  · rw [hcount, if_pos (by decide)]
    exact UInt16.toNat_lt _

namespace Instruction.Sized

variable {i : Instruction}

/-- The `wide` modifier decides about the width, also where a register is the destination. -/
theorem width_first (h : i.Sized) : Machine.width i i.operands.first = i.encodedWidth := by
  cases hfirst : i.operands.first with
  | none => rfl
  | some x =>
    cases x with
    | register part => exact h part (Operands.mem_of_first hfirst)
    | memory place => rfl
    | immediate value => rfl
    | relative distance => rfl

/-- An operand is read as a number of its width. -/
theorem read_lt (h : i.Sized) {x : Operand} (hx : x ∈ i.operands.toList) {m : Machine} {n : Nat}
    (hn : Flags.Fits i.encodedWidth n) {value : UInt32}
    (hread : m.read i (some x) i.encodedWidth = .ok value) : value.toNat < 2 ^ n := by
  cases x with
  | register part =>
    rw [Machine.read, Registers.get?] at hread
    split at hread
    · cases hread
      rw [UInt16.toNat_toUInt32]
      exact Registers.toNat_get_lt (h part hx ▸ hn) _
    · cases hread
  | memory place =>
    rw [Machine.read] at hread
    cases ha : m.addressOf place with
    | error f =>
      rw [ha] at hread
      cases hread
    | ok a =>
      rw [ha] at hread
      cases hread
      dsimp only
      rcases hn with ⟨hwidth, rfl⟩ | ⟨hwidth, rfl⟩
      · rw [hwidth, if_neg (by decide), UInt8.toNat_toUInt32]
        exact UInt8.toNat_lt _
      · rw [hwidth, if_pos rfl, UInt16.toNat_toUInt32]
        exact UInt16.toNat_lt _
  | immediate v =>
    cases hread
    rw [hn.toNat_and_widthMask]
    exact Nat.mod_lt _ (Nat.two_pow_pos n)
  | relative distance => cases hread

end Instruction.Sized
end I8086
