import I8086.Proofs.Packing
import I8086.Proofs.Widths

/-!
# How two operands are spelled

The encodings of `mov`, `add`, `sub` and `cmp`, each with the operands that its bytes stand for.

* `Opcode.modRm` is the byte that names a register and a place, and `Opcode.place` the place: a
  register or an address with the displacement that follows the byte.
* `Spells` says that a stream starts with an instruction of two given operands, and
  `Spells.decodeOne` that decoding then finds it.
* The lemmas `Table.spells_registerPlace` to `Table.spells_movAbsolute` go through the formats of
  the four operations.  Each takes the first byte apart as a number.
-/

set_option autoImplicit false

namespace I8086

/-! ## The byte with `mod` and `r/m` -/

namespace Opcode

/-- The byte with the given fields. -/
def modRm (mod : Fin 4) (reg rm : Fin 8) : UInt8 :=
  .ofNat (64 * mod.val + 8 * reg.val + rm.val)

theorem toNat_modRm (mod : Fin 4) (reg rm : Fin 8) :
    (modRm mod reg rm).toNat = 64 * mod.val + 8 * reg.val + rm.val :=
  UInt8.toNat_ofNat_of_lt' (show _ < 256 by omega)

/-- An address of its own instead of `[bp]`. -/
def isDirect (mod : Fin 4) (rm : Fin 8) : Bool := mod == 0 && rm == 6

/-- How many bytes of displacement follow. -/
def dispCount (mod : Fin 4) (rm : Fin 8) : Nat :=
  if mod = 1 then 1 else if mod = 2 || isDirect mod rm then 2 else 0

/-- The displacement that follows the first two bytes of a stream. -/
def displacement (bytes : Nat → UInt8) (mod : Fin 4) (rm : Fin 8) : Int16 :=
  if mod = 1 then (bytes 2).toInt8.toInt16
  else if mod = 2 || isDirect mod rm then (Image.wordOf (bytes 2) (bytes 3)).toInt16
  else 0

/-- The operand that a register field names. -/
def register (reg : Fin 8) (wide : Bool) : Operand :=
  .register (Fields.registerPart (.ofNat reg.val) wide)

/-- The operand that `mod` and `r/m` name, its displacement being that of the stream. -/
def place (bytes : Nat → UInt8) (mod : Fin 4) (rm : Fin 8) (wide : Bool) : Operand :=
  if mod = 3 then register rm wide
  else .memory ⟨.ds, if isDirect mod rm then .direct else Fields.baseOf (.ofNat rm.val),
    displacement bytes mod rm⟩

/-- The place only depends on the displacement bytes that there are. -/
theorem place_congr {bytes bytes' : Nat → UInt8} {mod : Fin 4} {rm : Fin 8}
    (h : ∀ k < dispCount mod rm, bytes (2 + k) = bytes' (2 + k)) (wide : Bool) :
    place bytes mod rm wide = place bytes' mod rm wide := by
  have hdisplacement : displacement bytes mod rm = displacement bytes' mod rm := by
    rw [dispCount] at h
    rw [displacement, displacement]
    split
    · rename_i hmod
      rw [if_pos hmod] at h
      rw [h 0 (by decide)]
    · rename_i hmod
      rw [if_neg hmod] at h
      split
      · rename_i hword
        rw [if_pos hword] at h
        rw [h 0 (by decide), h 1 (by decide)]
      · rfl
  rw [place, place, hdisplacement]

end Opcode

/-! ## Numbers in the stream -/

section Bits

variable {bytes : Nat → UInt8}

/-- A first byte with a six bit opcode and two flags. -/
theorem bits_six_one_one {opcode : Nat} {p q : Bool}
    (h : (bytes 0).toNat = 4 * opcode + 2 * p.toNat + q.toNat) :
    bitsAt bytes 0 6 = opcode ∧ bitsAt bytes 6 1 = p.toNat ∧ bitsAt bytes 7 1 = q.toNat := by
  have hbits : bitsAt bytes 0 6 = (bytes 0).toNat / 4 % 64 ∧
      bitsAt bytes 6 1 = (bytes 0).toNat / 2 % 2 ∧ bitsAt bytes 7 1 = (bytes 0).toNat / 1 % 2 :=
    ⟨rfl, rfl, rfl⟩
  have hlt := (bytes 0).toNat_lt
  have hp := p.toNat_le
  have hq := q.toNat_le
  omega

/-- A first byte with a seven bit opcode and a flag. -/
theorem bits_seven_one {opcode : Nat} {q : Bool} (h : (bytes 0).toNat = 2 * opcode + q.toNat) :
    bitsAt bytes 0 7 = opcode ∧ bitsAt bytes 7 1 = q.toNat := by
  have hbits : bitsAt bytes 0 7 = (bytes 0).toNat / 2 % 128 ∧
      bitsAt bytes 7 1 = (bytes 0).toNat / 1 % 2 := ⟨rfl, rfl⟩
  have hlt := (bytes 0).toNat_lt
  have hq := q.toNat_le
  omega

theorem bits_modRm {mod : Fin 4} {reg rm : Fin 8} (h : bytes 1 = Opcode.modRm mod reg rm) :
    bitsAt bytes 8 2 = mod.val ∧ bitsAt bytes 10 3 = reg.val ∧ bitsAt bytes 13 3 = rm.val := by
  have hbits : bitsAt bytes 8 2 = (bytes 1).toNat / 64 % 4 ∧
      bitsAt bytes 10 3 = (bytes 1).toNat / 8 % 8 ∧ bitsAt bytes 13 3 = (bytes 1).toNat / 1 % 8 :=
    ⟨rfl, rfl, rfl⟩
  have hsecond := Opcode.toNat_modRm mod reg rm
  rw [← h] at hsecond
  omega

end Bits

/-! ## Formats laid over a stream -/

namespace Format

variable {format : Format} {bytes : Nat → UInt8}

theorem headSize_of_bits (bits : List UInt8) (h : format.fields.map Field.bits = bits) :
    format.headSize = (bits.map UInt8.toNat).sum / 8 := by
  rw [headSize, widthOf, ← h, List.map_map]
  rfl

theorem describes_of_literals
    (h : ((format.places.filter Placed.isLiteral).all fun x =>
      x.value bytes == x.field.value) = true) : format.Describes bytes := by
  intro x hx
  rw [Placed.agrees]
  cases hliteral : x.isLiteral with
  | false => rfl
  | true => exact List.all_eq_true.1 h x (List.mem_filter.2 ⟨hx, hliteral⟩)

theorem field_mem_of_mem_placesFrom {fields : List Field} {place : Nat} {x : Placed}
    (h : x ∈ placesFrom place fields) : x.field ∈ fields := by
  induction fields generalizing place with
  | nil => cases h
  | cons field rest ih =>
    rcases List.mem_cons.1 h with rfl | h
    · exact List.mem_cons_self
    · exact List.mem_cons_of_mem _ (ih h)

/-- Fields that are not shifted contribute what they read. -/
theorem fieldsAt_of_unshifted (h : (format.fields.all fun field => field.shift == 0) = true) :
    format.fieldsAt bytes = (format.places.filter fun x => !x.isLiteral).map fun x =>
      (x.field.usage, x.value bytes) := by
  refine List.map_congr_left fun x hx => ?_
  have hshift := List.all_eq_true.1 h x.field
    (field_mem_of_mem_placesFrom (List.mem_filter.1 hx).1)
  rw [Placed.contribution, beq_iff_eq.1 hshift, shiftUp, if_pos (by decide)]
  exact congrArg _ (UInt32.shiftLeft_zero)

end Format

namespace Fields

/-- No field has one of these usages. -/
def lacks (f : Fields) (us : List Usage) : Bool :=
  us.all fun u => !f.present u

/-- The usages that only the formats of other operations have. -/
def foreign : List Usage := [.v, .escape, .relative, .far, .rmAlwaysWide, .disp]

variable {f : Fields}

theorem present_of_lacks {us : List Usage} (h : f.lacks us = true) {u : Usage} (hu : u ∈ us) :
    f.present u = false := by
  simpa using List.all_eq_true.1 h u hu

theorem flag_of_lacks {us : List Usage} (h : f.lacks us = true) {u : Usage} (hu : u ∈ us) :
    f.flag u = false :=
  flag_eq_false_of_not_present (present_of_lacks h hu)

theorem value_of_lacks {us : List Usage} (h : f.lacks us = true) {u : Usage} (hu : u ∈ us) :
    f.value u = 0 :=
  foldl_of_not_present (present_of_lacks h hu) 0

/-- A register, a place and data are all that there is to make operands of. -/
theorem operands_of_lacks (h : f.lacks foreign = true) (disp data size : UInt32) :
    f.operands disp data size =
      let reg := f.regOperand
      let rm := f.rmOperand disp.toUInt16.toInt16
      placeAll (if f.flag .d then ⟨reg, rm, none⟩ else ⟨rm, reg, none⟩)
        (if f.hasData then [.immediate data] else []) := by
  rw [operands, flag_of_lacks h (by decide : Usage.far ∈ _), Bool.false_and,
    if_neg Bool.false_ne_true, trailing, present_of_lacks h (by decide : Usage.v ∈ _),
    present_of_lacks h (by decide : Usage.escape ∈ _),
    flag_of_lacks h (by decide : Usage.relative ∈ _)]
  cases f.hasData with
  | false => rfl
  | true => rfl

/-- The fields have `mod` and `r/m`, and nothing else has a say in the place that they name. -/
structure Locates (f : Fields) (mod : Fin 4) (rm : Fin 8) : Prop where
  lacks : f.lacks [.hasDisp, .dispAlwaysWide, .rmAlwaysWide, .disp] = true
  present : f.present .mod = true
  mod : f.value .mod = .ofNat mod.val
  rm : f.value .rm = .ofNat rm.val

namespace Locates

variable {mod : Fin 4} {rm : Fin 8}

theorem hasDirectAddress_eq (h : f.Locates mod rm) :
    f.hasDirectAddress = Opcode.isDirect mod rm := by
  have hall : ∀ (mod : Fin 4) (rm : Fin 8),
      (UInt32.ofNat mod.val == 0 && UInt32.ofNat rm.val == 6) = Opcode.isDirect mod rm := by
    decide
  rw [hasDirectAddress, h.mod, h.rm, hall]

theorem dispIsWide_eq (h : f.Locates mod rm) :
    f.dispIsWide = (mod = 2 || Opcode.isDirect mod rm) := by
  have hall : ∀ mod : Fin 4, (UInt32.ofNat mod.val == 2) = decide (mod = 2) := by decide
  rw [dispIsWide, flag_of_lacks h.lacks (by decide : Usage.dispAlwaysWide ∈ _),
    h.hasDirectAddress_eq, h.mod, hall, Bool.false_or]

theorem hasDisp_eq (h : f.Locates mod rm) : f.hasDisp = (decide (mod = 1) || f.dispIsWide) := by
  have hall : ∀ mod : Fin 4, (UInt32.ofNat mod.val == 1) = decide (mod = 1) := by decide
  rw [Fields.hasDisp, dispIsWide, flag_of_lacks h.lacks (by decide : Usage.dispAlwaysWide ∈ _),
    flag_of_lacks h.lacks (by decide : Usage.hasDisp ∈ _), h.mod, hall, Bool.false_or,
    Bool.false_or, Bool.or_assoc]

theorem dispIsWide_one (h : f.Locates 1 rm) : f.dispIsWide = false := by
  rw [h.dispIsWide_eq]
  rfl

theorem dispSize_eq (h : f.Locates mod rm) : f.dispSize = Opcode.dispCount mod rm := by
  rw [dispSize, h.hasDisp_eq, Opcode.dispCount, ← h.dispIsWide_eq]
  by_cases hmod : mod = 1
  · subst hmod
    rw [h.dispIsWide_one]
    rfl
  · rw [decide_eq_false hmod, Bool.false_or, if_neg hmod]
    cases f.dispIsWide with
    | true => rfl
    | false => rfl

theorem displacement_eq (h : f.Locates mod rm) (bytes : Nat → UInt8) :
    (f.dispAt bytes 2).toUInt16.toInt16 = Opcode.displacement bytes mod rm := by
  rw [dispAt, h.hasDisp_eq, Opcode.displacement, ← h.dispIsWide_eq]
  by_cases hmod : mod = 1
  · subst hmod
    rw [h.dispIsWide_one]
    exact congrArg UInt16.toInt16 (toUInt16_extend (bytes 2))
  · rw [decide_eq_false hmod, Bool.false_or, if_neg hmod]
    cases f.dispIsWide with
    | true => exact congrArg UInt16.toInt16 (UInt16.toUInt16_toUInt32 _)
    | false =>
      rw [if_neg Bool.false_ne_true, if_neg Bool.false_ne_true,
        value_of_lacks h.lacks (by decide : Usage.disp ∈ _)]
      rfl

theorem rmOperand_eq (h : f.Locates mod rm) (bytes : Nat → UInt8) :
    f.rmOperand (f.dispAt bytes 2).toUInt16.toInt16 =
      some (Opcode.place bytes mod rm (f.flag .w)) := by
  have hall : ∀ mod : Fin 4, (UInt32.ofNat mod.val == 3) = decide (mod = 3) := by decide
  rw [rmOperand, h.present, h.displacement_eq, h.hasDirectAddress_eq, h.mod, h.rm, hall,
    flag_of_lacks h.lacks (by decide : Usage.rmAlwaysWide ∈ _), Bool.or_false,
    Opcode.place, Opcode.register]
  by_cases hmod : mod = 3
  · rw [decide_eq_true hmod, if_pos hmod]
    rfl
  · rw [decide_eq_false hmod, if_neg hmod]
    rfl

end Locates

/-- The fields have `mod` and `r/m`, which decide about the displacement alone. -/
structure Addresses (f : Fields) (mod : Fin 4) (rm : Fin 8) : Prop where
  lacks_foreign : f.lacks foreign = true
  lacks_disp : f.lacks [.hasDisp, .dispAlwaysWide] = true
  present : f.present .mod = true
  mod : f.value .mod = .ofNat mod.val
  rm : f.value .rm = .ofNat rm.val

theorem Addresses.locates {mod : Fin 4} {rm : Fin 8} (h : f.Addresses mod rm) :
    f.Locates mod rm := by
  refine ⟨List.all_eq_true.2 fun u hu => ?_, h.present, h.mod, h.rm⟩
  have hsplit : u ∈ [.hasDisp, .dispAlwaysWide] ∨ u ∈ foreign :=
    (show ∀ u ∈ [Usage.hasDisp, .dispAlwaysWide, .rmAlwaysWide, .disp],
      u ∈ [.hasDisp, .dispAlwaysWide] ∨ u ∈ foreign by decide) u hu
  rcases hsplit with hu | hu
  · rw [present_of_lacks h.lacks_disp hu, Bool.not_false]
  · rw [present_of_lacks h.lacks_foreign hu, Bool.not_false]

end Fields

/-! ## Spelling -/

/-- The stream starts with an instruction of `size` bytes: the operation `op` on words or bytes,
with the operands `a` and `b`. -/
def Spells (bytes : Nat → UInt8) (op : Operation) (wide : Bool) (a b : Operand) (size : Nat) :
    Prop :=
  ∃ f ∈ Table.formats, f.operation = op ∧ f.Describes bytes ∧ (f.fieldsAt bytes).flag .w = wide ∧
    f.operandsAt bytes = .ok ⟨some a, some b, none⟩ ∧ f.sizeAt bytes = size

/-- Decoding finds what the stream spells, whatever prefixes stand in front of it. -/
theorem Spells.decodeOne {image : Image} {cursor : Cursor} {op : Operation} {wide : Bool}
    {a b : Operand} {size : Nat} (h : Spells (image.along cursor) op wide a b size)
    (hop : op.readsTwo = true) (calls : List (Image × Cursor)) :
    ∃ x, decodeOne (Pending.clear.through calls) image cursor = .ok x ∧
      x.instruction.size.toNat = size ∧ x.instruction.operation = op ∧
      Machine.width x.instruction x.instruction.operands.first = (if wide then 2 else 1) ∧
      x.instruction.operands =
        let segment := (Pending.clear.through calls).dataSegment
        ⟨some (a.inSegment segment), some (b.inSegment segment), none⟩ := by
  obtain ⟨f, hf, rfl, hd, rfl, hoperands, rfl⟩ := h
  have hw := Table.wellFormed f hf
  obtain ⟨ops, hops, hiff⟩ := hw.attempt_eq_ok_iff image cursor
  obtain rfl : ops = ⟨some a, some b, none⟩ := Except.ok.inj (hops.symm.trans hoperands)
  have hlimit : f.sizeAt (image.along cursor) ≤ 1048576 :=
    Nat.le_trans (hw.sizeAt_le _) (by decide)
  -- the one byte that two formats describe is none of these operations
  have hxchg : f = Table.xchgAccumulator → ¬ Table.nop.Describes (image.along cursor) := by
    rintro rfl
    cases hop
  have hdecode := decodeOne_of_attempt hf ((hiff 1048576 _).2 ⟨⟨hd, hlimit⟩, rfl⟩) hxchg
    (Pending.clear.through calls)
  refine ⟨_, hdecode, hw.toNat_sizeAt _, rfl, ?_, rfl⟩
  rw [(sized_of_decodeOne hdecode hop).width_first, Instruction.encodedWidth,
    ← Fields.has_wide_modifiers]
  refine congrArg (fun p : Bool => if p then (2 : UInt8) else 1) ?_
  exact (Modifiers.has_wide_union _ _).trans (by rw [Pending.has_wide_through, Bool.or_false])

/-! ### A place and a register -/

section Pair

variable {bytes : Nat → UInt8} {f : Format} {g : Fields} {mod : Fin 4} {rm : Fin 8} {x : Operand}

/-- The fields name a register and a place. -/
theorem spells_pair (hf : f ∈ Table.formats) (hd : f.Describes bytes) (hg : f.fieldsAt bytes = g)
    (hn : f.headSize = 2) (haddresses : g.Addresses mod rm) (hdata : g.present .hasData = false)
    (hreg : g.regOperand = some x) :
    Spells bytes f.operation (g.flag .w)
      (if g.flag .d then x else Opcode.place bytes mod rm (g.flag .w))
      (if g.flag .d then Opcode.place bytes mod rm (g.flag .w) else x)
      (2 + Opcode.dispCount mod rm) := by
  subst hg
  have hnone : (f.fieldsAt bytes).hasData = false := Fields.flag_eq_false_of_not_present hdata
  refine ⟨f, hf, rfl, hd, rfl, ?_, ?_⟩
  · rw [Format.operandsAt, hn, Fields.operands_of_lacks haddresses.lacks_foreign,
      haddresses.locates.rmOperand_eq, hreg, hnone]
    cases (f.fieldsAt bytes).flag .d with
    | true => rfl
    | false => rfl
  · rw [Format.sizeAt, hn, Fields.tailSize, haddresses.locates.dispSize_eq, Fields.dataSize, hnone]
    rfl

/-- The fields name a place, and data follow. -/
theorem spells_data (hf : f ∈ Table.formats) (hd : f.Describes bytes) (hg : f.fieldsAt bytes = g)
    (hn : f.headSize = 2) (haddresses : g.Addresses mod rm) (hdata : g.hasData = true)
    (hwide : g.flag .wideData = true) (hreg : g.regOperand = none) (hflag : g.flag .d = false) :
    Spells bytes f.operation (g.flag .w) (Opcode.place bytes mod rm (g.flag .w))
      (.immediate (numberAt bytes (2 + Opcode.dispCount mod rm) (!g.flag .s && g.flag .w)
        (g.flag .s)))
      (2 + Opcode.dispCount mod rm + if !g.flag .s && g.flag .w then 2 else 1) := by
  subst hg
  have hdataIsWide : (f.fieldsAt bytes).dataIsWide =
      (!(f.fieldsAt bytes).flag .s && (f.fieldsAt bytes).flag .w) := by
    rw [Fields.dataIsWide, hwide, Bool.true_and]
  refine ⟨f, hf, rfl, hd, rfl, ?_, ?_⟩
  · rw [Format.operandsAt, hn, Fields.operands_of_lacks haddresses.lacks_foreign,
      haddresses.locates.rmOperand_eq, haddresses.locates.dispSize_eq, Fields.dataAt, hreg, hdata,
      hflag, hdataIsWide]
    rfl
  · rw [Format.sizeAt, hn, Fields.tailSize, haddresses.locates.dispSize_eq, Fields.dataSize, hdata,
      if_pos rfl, hdataIsWide, Nat.add_assoc]

/-- The fields name a register, and data follow. -/
theorem spells_immediate (hf : f ∈ Table.formats) (hd : f.Describes bytes)
    (hg : f.fieldsAt bytes = g) (hn : f.headSize = 1) (hforeign : g.lacks Fields.foreign = true)
    (hplace : g.lacks [.mod, .rm, .hasDisp, .s] = true) (hdata : g.hasData = true)
    (hwide : g.flag .wideData = true) (hreg : g.regOperand = some x) (hflag : g.flag .d = true) :
    Spells bytes f.operation (g.flag .w) x (.immediate (numberAt bytes 1 (g.flag .w) false))
      (1 + if g.flag .w then 2 else 1) := by
  subst hg
  have hsigned : (f.fieldsAt bytes).flag .s = false := Fields.flag_of_lacks hplace (by decide)
  have hdataIsWide : (f.fieldsAt bytes).dataIsWide = (f.fieldsAt bytes).flag .w := by
    rw [Fields.dataIsWide, hwide, hsigned]
    rfl
  have hsize : (f.fieldsAt bytes).dispSize = 0 := by
    rw [Fields.dispSize, Fields.hasDisp, Fields.hasDirectAddress,
      Fields.flag_of_lacks hplace (by decide : Usage.hasDisp ∈ _),
      Fields.value_of_lacks hplace (by decide : Usage.mod ∈ _),
      Fields.value_of_lacks hplace (by decide : Usage.rm ∈ _)]
    rfl
  refine ⟨f, hf, rfl, hd, rfl, ?_, ?_⟩
  · rw [Format.operandsAt, hn, Fields.operands_of_lacks hforeign, hsize, Fields.dataAt, hdata,
      hflag, hreg, Fields.rmOperand,
      Fields.present_of_lacks hplace (by decide : Usage.mod ∈ _), hdataIsWide, hsigned]
    rfl
  · rw [Format.sizeAt, hn, Fields.tailSize, hsize, Fields.dataSize, hdata, if_pos rfl,
      hdataIsWide, Nat.zero_add]

end Pair

/-! ## The formats -/

/-- A flag that is read off a single bit. -/
theorem Fields.flag_of_value {f : Fields} {u : Usage} {p : Bool}
    (h : f.value u = .ofNat p.toNat) : f.flag u = p := by
  rw [flag, h]
  cases p with
  | true => rfl
  | false => rfl

namespace Table

/-- `[opcode|d|w] [mod|reg|r/m] [disp?]` -/
def registerPlace (op : Operation) (opcode : UInt32) : Format :=
  ⟨op, [lit 6 opcode, d, w, mod, reg, rm]⟩

/-- `[100000|s|w] [mod|pattern|r/m] [disp?] [data]` -/
def placeImmediate (op : Operation) (pattern : UInt32) : Format :=
  ⟨op, [lit 6 0b100000, s, w, mod, lit 3 pattern, rm, data, dataIfWide]⟩

/-- `[opcode|w] [data]` -/
def accumulatorImmediate (op : Operation) (opcode : UInt32) : Format :=
  ⟨op, [lit 7 opcode, w, data, dataIfWide, fixedReg 0, fixedD 1]⟩

/-- `[1100011|w] [mod|000|r/m] [disp?] [data]` -/
def movPlaceImmediate : Format :=
  ⟨.mov, [lit 7 0b1100011, w, mod, lit 3 0b000, rm, data, dataIfWide, fixedD 0]⟩

/-- `[1011|w|reg] [data]` -/
def movRegisterImmediate : Format :=
  ⟨.mov, [lit 4 0b1011, w, reg, data, dataIfWide, fixedD 1]⟩

/-- `[opcode|w] [address]` -/
def movAbsolute (opcode toAccumulator : UInt32) : Format :=
  ⟨.mov, [lit 7 opcode, w, disp, dispWide, fixedReg 0, fixedMod 0b00, fixedRm 0b110,
    fixedD toAccumulator]⟩

/-- `[100011|d|0] [mod|0|sr|r/m] [disp?]` -/
def movSegment : Format :=
  ⟨.mov, [lit 6 0b100011, d, lit 1 0b0, mod, lit 1 0b0, sr, rm, fixedW 1]⟩

variable {bytes : Nat → UInt8} {op : Operation} {md : Fin 4} {r q : Fin 8}

theorem spells_registerPlace {opcode : UInt32} (hf : registerPlace op opcode ∈ formats)
    {toRegister wide : Bool}
    (hfirst : (bytes 0).toNat = 4 * opcode.toNat + 2 * toRegister.toNat + wide.toNat)
    (hsecond : bytes 1 = Opcode.modRm md r q) :
    Spells bytes op wide
      (if toRegister then Opcode.register r wide else Opcode.place bytes md q wide)
      (if toRegister then Opcode.place bytes md q wide else Opcode.register r wide)
      (2 + Opcode.dispCount md q) := by
  obtain ⟨hopcode, hd, hw⟩ := bits_six_one_one hfirst
  obtain ⟨hmod, hreg, hrm⟩ := bits_modRm hsecond
  have hdescribes : (registerPlace op opcode).Describes bytes := by
    apply Format.describes_of_literals
    have hliteral : UInt32.ofNat (bitsAt bytes 0 6) = opcode := by
      rw [hopcode, UInt32.ofNat_toNat]
    exact Bool.and_eq_true_iff.2 ⟨beq_iff_eq.2 hliteral, rfl⟩
  let fields : Fields := [(.d, .ofNat toRegister.toNat), (.w, .ofNat wide.toNat),
    (.mod, .ofNat md.val), (.reg, .ofNat r.val), (.rm, .ofNat q.val)]
  have hfields : (registerPlace op opcode).fieldsAt bytes = fields := by
    simp only [fields, ← hd, ← hw, ← hmod, ← hreg, ← hrm]
    exact Format.fieldsAt_of_unshifted rfl
  have haddresses : fields.Addresses md q :=
    ⟨rfl, rfl, rfl, UInt32.zero_or, UInt32.zero_or⟩
  have hwide : fields.flag .w = wide := Fields.flag_of_value UInt32.zero_or
  have htoRegister : fields.flag .d = toRegister := Fields.flag_of_value UInt32.zero_or
  have hregister : fields.regOperand = some (Opcode.register r wide) := by
    rw [Fields.regOperand, hwide, show fields.value .reg = .ofNat r.val from UInt32.zero_or]
    rfl
  have hspells := spells_pair hf hdescribes hfields
    (Format.headSize_of_bits [6, 1, 1, 2, 3, 3] rfl) haddresses rfl hregister
  rwa [hwide, htoRegister] at hspells

theorem spells_placeImmediate (hf : placeImmediate op (.ofNat r.val) ∈ formats)
    {signed wide : Bool} (hfirst : (bytes 0).toNat = 0x80 + 2 * signed.toNat + wide.toNat)
    (hsecond : bytes 1 = Opcode.modRm md r q) :
    Spells bytes op wide (Opcode.place bytes md q wide)
      (.immediate (numberAt bytes (2 + Opcode.dispCount md q) (!signed && wide) signed))
      (2 + Opcode.dispCount md q + if !signed && wide then 2 else 1) := by
  obtain ⟨hopcode, hs, hw⟩ := @bits_six_one_one bytes 0b100000 signed wide hfirst
  obtain ⟨hmod, hreg, hrm⟩ := bits_modRm hsecond
  have hdescribes : (placeImmediate op (.ofNat r.val)).Describes bytes := by
    apply Format.describes_of_literals
    have hfirst : UInt32.ofNat (bitsAt bytes 0 6) = 0b100000 := by
      rw [hopcode]
      rfl
    have hpattern : UInt32.ofNat (bitsAt bytes 10 3) = .ofNat r.val := by rw [hreg]
    exact Bool.and_eq_true_iff.2 ⟨beq_iff_eq.2 hfirst,
      Bool.and_eq_true_iff.2 ⟨beq_iff_eq.2 hpattern, rfl⟩⟩
  let fields : Fields := [(.s, .ofNat signed.toNat), (.w, .ofNat wide.toNat),
    (.mod, .ofNat md.val), (.rm, .ofNat q.val), (.hasData, 1), (.wideData, 1)]
  have hfields : (placeImmediate op (.ofNat r.val)).fieldsAt bytes = fields := by
    simp only [fields, ← hs, ← hw, ← hmod, ← hrm]
    exact Format.fieldsAt_of_unshifted rfl
  have haddresses : fields.Addresses md q :=
    ⟨rfl, rfl, rfl, UInt32.zero_or, UInt32.zero_or⟩
  have hwide : fields.flag .w = wide := Fields.flag_of_value UInt32.zero_or
  have hsigned : fields.flag .s = signed := Fields.flag_of_value UInt32.zero_or
  have hspells := spells_data hf hdescribes hfields
    (Format.headSize_of_bits [6, 1, 1, 2, 3, 3, 0, 0] rfl) haddresses
    (Fields.flag_of_value UInt32.zero_or) (Fields.flag_of_value UInt32.zero_or) rfl
    (Fields.flag_eq_false_of_not_present rfl)
  rwa [hwide, hsigned] at hspells

theorem spells_accumulatorImmediate {opcode : UInt32}
    (hf : accumulatorImmediate op opcode ∈ formats) {wide : Bool}
    (hfirst : (bytes 0).toNat = 2 * opcode.toNat + wide.toNat) :
    Spells bytes op wide (Opcode.register 0 wide) (.immediate (numberAt bytes 1 wide false))
      (1 + if wide then 2 else 1) := by
  obtain ⟨hopcode, hw⟩ := bits_seven_one hfirst
  have hdescribes : (accumulatorImmediate op opcode).Describes bytes := by
    apply Format.describes_of_literals
    have hliteral : UInt32.ofNat (bitsAt bytes 0 7) = opcode := by
      rw [hopcode, UInt32.ofNat_toNat]
    exact Bool.and_eq_true_iff.2 ⟨beq_iff_eq.2 hliteral, rfl⟩
  let fields : Fields := [(.w, .ofNat wide.toNat), (.hasData, 1), (.wideData, 1), (.reg, 0),
    (.d, 1)]
  have hfields : (accumulatorImmediate op opcode).fieldsAt bytes = fields := by
    simp only [fields, ← hw]
    exact Format.fieldsAt_of_unshifted rfl
  have hwide : fields.flag .w = wide := Fields.flag_of_value UInt32.zero_or
  have hregister : fields.regOperand = some (Opcode.register 0 wide) := by
    rw [Fields.regOperand, hwide, show fields.value .reg = 0 from UInt32.zero_or]
    rfl
  have hspells := spells_immediate hf hdescribes hfields
    (Format.headSize_of_bits [7, 1, 0, 0, 0, 0] rfl) rfl rfl
    (Fields.flag_of_value UInt32.zero_or) (Fields.flag_of_value UInt32.zero_or) hregister
    (Fields.flag_of_value UInt32.zero_or)
  rwa [hwide] at hspells

theorem spells_movPlaceImmediate {wide : Bool} (hfirst : (bytes 0).toNat = 0xC6 + wide.toNat)
    (hsecond : bytes 1 = Opcode.modRm md 0 q) :
    Spells bytes .mov wide (Opcode.place bytes md q wide)
      (.immediate (numberAt bytes (2 + Opcode.dispCount md q) wide false))
      (2 + Opcode.dispCount md q + if wide then 2 else 1) := by
  obtain ⟨hopcode, hw⟩ := @bits_seven_one bytes 0b1100011 wide hfirst
  obtain ⟨hmod, hreg, hrm⟩ := bits_modRm hsecond
  have hdescribes : movPlaceImmediate.Describes bytes := by
    apply Format.describes_of_literals
    have hliteral : UInt32.ofNat (bitsAt bytes 0 7) = 0b1100011 := by
      rw [hopcode]
      rfl
    have hpattern : UInt32.ofNat (bitsAt bytes 10 3) = 0b000 := by
      rw [hreg]
      rfl
    exact Bool.and_eq_true_iff.2 ⟨beq_iff_eq.2 hliteral,
      Bool.and_eq_true_iff.2 ⟨beq_iff_eq.2 hpattern, rfl⟩⟩
  let fields : Fields := [(.w, .ofNat wide.toNat), (.mod, .ofNat md.val), (.rm, .ofNat q.val),
    (.hasData, 1), (.wideData, 1), (.d, 0)]
  have hfields : movPlaceImmediate.fieldsAt bytes = fields := by
    simp only [fields, ← hw, ← hmod, ← hrm]
    exact Format.fieldsAt_of_unshifted rfl
  have haddresses : fields.Addresses md q :=
    ⟨rfl, rfl, rfl, UInt32.zero_or, UInt32.zero_or⟩
  have hwide : fields.flag .w = wide := Fields.flag_of_value UInt32.zero_or
  have hsigned : fields.flag .s = false := Fields.flag_eq_false_of_not_present rfl
  have hspells := spells_data (List.mem_of_getElem? (show formats[1]? = some _ from rfl))
    hdescribes hfields rfl haddresses (Fields.flag_of_value UInt32.zero_or)
    (Fields.flag_of_value UInt32.zero_or) rfl (Fields.flag_of_value UInt32.zero_or)
  rwa [hwide, hsigned] at hspells

theorem spells_movRegisterImmediate {wide : Bool}
    (hfirst : (bytes 0).toNat = 0xB0 + 8 * wide.toNat + r.val) :
    Spells bytes .mov wide (Opcode.register r wide) (.immediate (numberAt bytes 1 wide false))
      (1 + if wide then 2 else 1) := by
  obtain ⟨hopcode, hw, hreg⟩ :
      bitsAt bytes 0 4 = 0b1011 ∧ bitsAt bytes 4 1 = wide.toNat ∧ bitsAt bytes 5 3 = r.val := by
    have hbits : bitsAt bytes 0 4 = (bytes 0).toNat / 16 % 16 ∧
        bitsAt bytes 4 1 = (bytes 0).toNat / 8 % 2 ∧ bitsAt bytes 5 3 = (bytes 0).toNat / 1 % 8 :=
      ⟨rfl, rfl, rfl⟩
    have hw := wide.toNat_le
    omega
  have hdescribes : movRegisterImmediate.Describes bytes := by
    apply Format.describes_of_literals
    have hliteral : UInt32.ofNat (bitsAt bytes 0 4) = 0b1011 := by
      rw [hopcode]
      rfl
    exact Bool.and_eq_true_iff.2 ⟨beq_iff_eq.2 hliteral, rfl⟩
  let fields : Fields := [(.w, .ofNat wide.toNat), (.reg, .ofNat r.val), (.hasData, 1),
    (.wideData, 1), (.d, 1)]
  have hfields : movRegisterImmediate.fieldsAt bytes = fields := by
    simp only [fields, ← hw, ← hreg]
    exact Format.fieldsAt_of_unshifted rfl
  have hwide : fields.flag .w = wide := Fields.flag_of_value UInt32.zero_or
  have hregister : fields.regOperand = some (Opcode.register r wide) := by
    rw [Fields.regOperand, hwide, show fields.value .reg = .ofNat r.val from UInt32.zero_or]
    rfl
  have hspells := spells_immediate (List.mem_of_getElem? (show formats[2]? = some _ from rfl))
    hdescribes hfields rfl rfl rfl (Fields.flag_of_value UInt32.zero_or)
    (Fields.flag_of_value UInt32.zero_or) hregister (Fields.flag_of_value UInt32.zero_or)
  rwa [hwide] at hspells

theorem spells_movSegment {toRegister : Bool}
    (hfirst : (bytes 0).toNat = 0x8C + 2 * toRegister.toNat) (hr : r.val < 4)
    (hsecond : bytes 1 = Opcode.modRm md r q) :
    Spells bytes .mov true
      (if toRegister then .register (Fields.segmentPart (.ofNat r.val))
        else Opcode.place bytes md q true)
      (if toRegister then Opcode.place bytes md q true
        else .register (Fields.segmentPart (.ofNat r.val)))
      (2 + Opcode.dispCount md q) := by
  obtain ⟨hopcode, hd, hw⟩ := @bits_six_one_one bytes 0b100011 toRegister false hfirst
  obtain ⟨hmod, hreg, hrm⟩ := bits_modRm hsecond
  obtain ⟨hzero, hsr⟩ : bitsAt bytes 10 1 = 0 ∧ bitsAt bytes 11 2 = r.val := by
    have hbits : bitsAt bytes 10 3 = (bytes 1).toNat / 8 % 8 ∧
        bitsAt bytes 10 1 = (bytes 1).toNat / 32 % 2 ∧
        bitsAt bytes 11 2 = (bytes 1).toNat / 8 % 4 := ⟨rfl, rfl, rfl⟩
    omega
  have hdescribes : movSegment.Describes bytes := by
    apply Format.describes_of_literals
    have hliteral : UInt32.ofNat (bitsAt bytes 0 6) = 0b100011 ∧
        UInt32.ofNat (bitsAt bytes 7 1) = 0b0 ∧ UInt32.ofNat (bitsAt bytes 10 1) = 0b0 := by
      rw [hopcode, hw, hzero]
      exact ⟨rfl, rfl, rfl⟩
    exact Bool.and_eq_true_iff.2 ⟨beq_iff_eq.2 hliteral.1, Bool.and_eq_true_iff.2
      ⟨beq_iff_eq.2 hliteral.2.1, Bool.and_eq_true_iff.2 ⟨beq_iff_eq.2 hliteral.2.2, rfl⟩⟩⟩
  let fields : Fields := [(.d, .ofNat toRegister.toNat), (.mod, .ofNat md.val),
    (.sr, .ofNat r.val), (.rm, .ofNat q.val), (.w, 1)]
  have hfields : movSegment.fieldsAt bytes = fields := by
    simp only [fields, ← hd, ← hmod, ← hsr, ← hrm]
    exact Format.fieldsAt_of_unshifted rfl
  have haddresses : fields.Addresses md q :=
    ⟨rfl, rfl, rfl, UInt32.zero_or, UInt32.zero_or⟩
  have hwide : fields.flag .w = true := Fields.flag_of_value UInt32.zero_or
  have htoRegister : fields.flag .d = toRegister := Fields.flag_of_value UInt32.zero_or
  have hregister : fields.regOperand = some (.register (Fields.segmentPart (.ofNat r.val))) := by
    rw [Fields.regOperand, show fields.value .sr = .ofNat r.val from UInt32.zero_or]
    rfl
  have hspells := spells_pair (List.mem_of_getElem? (show formats[5]? = some _ from rfl))
    hdescribes hfields rfl haddresses rfl hregister
  rwa [hwide, htoRegister] at hspells

/-- The address of a place that is named by its address alone follows the first byte. -/
theorem spells_movAbsolute {toAccumulator wide : Bool}
    (hfirst : (bytes 0).toNat = 0xA0 + 2 * (!toAccumulator).toNat + wide.toNat) :
    let place := Operand.memory ⟨.ds, .direct, (Image.wordOf (bytes 1) (bytes 2)).toInt16⟩
    Spells bytes .mov wide (if toAccumulator then Opcode.register 0 wide else place)
      (if toAccumulator then place else Opcode.register 0 wide) 3 := by
  intro place
  obtain ⟨hopcode, hw⟩ := @bits_seven_one bytes (0b1010000 + (!toAccumulator).toNat) wide (by omega)
  let format := movAbsolute (.ofNat (0b1010000 + (!toAccumulator).toNat))
    (.ofNat toAccumulator.toNat)
  have hf : format ∈ formats := by
    cases toAccumulator with
    | true => exact List.mem_of_getElem? (show formats[3]? = some _ from rfl)
    | false => exact List.mem_of_getElem? (show formats[4]? = some _ from rfl)
  have hdescribes : format.Describes bytes := by
    apply Format.describes_of_literals
    exact Bool.and_eq_true_iff.2 ⟨beq_iff_eq.2 (congrArg UInt32.ofNat hopcode), rfl⟩
  let fields : Fields := [(.w, .ofNat wide.toNat), (.hasDisp, 1), (.dispAlwaysWide, 1), (.reg, 0),
    (.mod, 0), (.rm, 6), (.d, .ofNat toAccumulator.toNat)]
  have hfields : format.fieldsAt bytes = fields := by
    simp only [fields, ← hw]
    exact Format.fieldsAt_of_unshifted rfl
  have hwide : fields.flag .w = wide := Fields.flag_of_value UInt32.zero_or
  have hhead : format.headSize = 1 := Format.headSize_of_bits [7, 1, 0, 0, 0, 0, 0, 0] rfl
  have hnumber : fields.dispAt bytes 1 = (Image.wordOf (bytes 1) (bytes 2)).toUInt32 := by
    cases toAccumulator <;> cases wide <;> rfl
  have hsize : fields.dispSize = 2 ∧ fields.dataSize = 0 := by
    cases toAccumulator <;> cases wide <;> exact ⟨rfl, rfl⟩
  refine ⟨format, hf, rfl, hdescribes, hfields ▸ hwide, ?_, ?_⟩
  · rw [Format.operandsAt, hhead, hfields, Fields.operands_of_lacks rfl, hnumber,
      UInt16.toUInt16_toUInt32]
    cases toAccumulator <;> cases wide <;> rfl
  · rw [Format.sizeAt, hhead, hfields, Fields.tailSize, hsize.1, hsize.2]

end Table
end I8086
