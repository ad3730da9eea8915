import I8086.Proofs.Lanes
import I8086.Proofs.Spelling

/-!
# The operands of `mod` and `r/m`

About fifty encodings have a second byte with `mod` and `r/m`.  They differ in what else they have:
a register, a shift count, an opcode for another processor or a constant, with or without the bits
`d`, `s`, `w` and `v`.  The rules for the operands are the same for all of them.

* `Opcode.located` and `Format.beside` are the operands of the second byte, and `Format.trailing` is
  the one behind them.  `Operands.arrange` puts them into their slots.  The tables of registers are
  written out here.
* `Format.Addressing` is what these encodings have in common, and `Table.addressing` checks it.
* `Format.Addressing.operandsAt_eq` derives the rules from it.
-/

set_option autoImplicit false

namespace I8086

/-! ## The rules -/

namespace Opcode

/-- The registers that three bits name, as a byte and as a word. -/
def registers : Vector (RegisterPart × RegisterPart) 8 := #v[
  (.low .a, .whole .a), (.low .c, .whole .c), (.low .d, .whole .d), (.low .b, .whole .b),
  (.high .a, .whole .sp), (.high .c, .whole .bp), (.high .d, .whole .si), (.high .b, .whole .di)]

/-- The segment registers that two bits name. -/
def segments : Vector Register 4 := #v[.es, .cs, .ss, .ds]

/-- The register that three bits and `w` name. -/
def registerOf (reg : Fin 8) (wide : Bool) : RegisterPart :=
  if wide then (registers.get reg).2 else (registers.get reg).1

def modOf (b : UInt8) : Fin 4 := ⟨b.toNat / 64, Nat.div_lt_of_lt_mul b.toNat_lt⟩

def regOf (b : UInt8) : Fin 8 := ⟨b.toNat / 8 % 8, Nat.mod_lt _ (by decide)⟩

def srOf (b : UInt8) : Fin 4 := ⟨b.toNat / 8 % 4, Nat.mod_lt _ (by decide)⟩

def rmOf (b : UInt8) : Fin 8 := ⟨b.toNat % 8, Nat.mod_lt _ (by decide)⟩

/-- The operand that `mod` and `r/m` name: a register, or a place in memory with the displacement
that follows. -/
def located (bytes : Nat → UInt8) (wide : Bool) (segment : Register) : Operand :=
  let mod := modOf (bytes 1)
  let rm := rmOf (bytes 1)
  if mod.val = 3 then .register (registerOf rm wide)
  else
    let base := if isDirect mod rm then .direct else Base.ofCode (.ofNat (rm.val + 1))
    .memory ⟨segment, base, displacement bytes mod rm⟩

end Opcode

/-- The operand of `mod` and `r/m` is the first one, or the second one if `d` is set.  The register
beside it takes the other slot, and what comes last the first slot that is still free. -/
def Operands.arrange (d : Bool) (place : Operand) (beside trailing : Option Operand) : Operands :=
  match d, beside with
  | false, some register => ⟨some place, some register, trailing⟩
  | true, some register => ⟨some register, some place, trailing⟩
  | false, none => ⟨some place, trailing, none⟩
  | true, none => ⟨trailing, some place, none⟩

namespace Format

/-- The fields of one usage. -/
def placesOf (f : Format) (u : Usage) : List Placed := f.places.filter fun x => x.field.usage == u

/-- Whether there is a field of a usage, with bits of its own or implicit. -/
def mentions (f : Format) (u : Usage) : Bool := !(f.placesOf u).isEmpty

/-- Whether a field of a usage takes bits from the stream. -/
def streams (f : Format) (u : Usage) : Bool := (f.placesOf u).any fun x => x.field.bits != 0

/-- The bits of a field, or its implicit value; zero if there is no such field. -/
def numberOf (f : Format) (bytes : Nat → UInt8) (u : Usage) : Nat :=
  ((f.placesOf u).head?.map fun x => (x.value bytes).toNat).getD 0

/-- The register that is named beside `mod` and `r/m`. -/
def beside (f : Format) (bytes : Nat → UInt8) : Option Operand :=
  if f.mentions .sr then some (.register (.whole (Opcode.segments.get (Opcode.srOf (bytes 1)))))
  else if f.mentions .reg then
    some (.register (Opcode.registerOf (Opcode.regOf (bytes 1)) (f.numberOf bytes .w == 1)))
  else none

/-- The constant at byte `n`: a word if the format widens it for `w` and `s` is not set, and
otherwise a byte, sign extended if `s` is set. -/
def constantAt (f : Format) (bytes : Nat → UInt8) (n : Nat) : UInt32 :=
  if f.mentions .wideData && f.numberOf bytes .w == 1 && f.numberOf bytes .s == 0 then
    .ofNat ((bytes n).toNat + 256 * (bytes (n + 1)).toNat)
  else if f.numberOf bytes .s == 1 then (bytes n).toInt8.toInt32.toUInt32
  else (bytes n).toUInt32

/-- The operand behind the others: the shift count, the six bits of an opcode for another processor,
or the constant behind the displacement. -/
def trailing (f : Format) (bytes : Nat → UInt8) : Option Operand :=
  if f.mentions .v then
    some (if f.numberOf bytes .v == 1 then .register (.low .c) else .immediate 1)
  else if f.mentions .escape then
    some (.immediate (.ofNat (8 * ((bytes 0).toNat % 8) + (Opcode.regOf (bytes 1)).val)))
  else if f.mentions .hasData then
    some (.immediate (f.constantAt bytes
      (2 + Opcode.dispCount (Opcode.modOf (bytes 1)) (Opcode.rmOf (bytes 1)))))
  else none

/-- The operands of a stream in a format with `mod` and `r/m`. -/
def resolved (f : Format) (bytes : Nat → UInt8) (segment : Register) : Operands :=
  .arrange (f.numberOf bytes .d == 1) (Opcode.located bytes (f.numberOf bytes .w == 1) segment)
    (f.beside bytes) (f.trailing bytes)

end Format

/-! ## The tables -/

namespace Opcode

theorem registerPart_eq (reg : Fin 8) (wide : Bool) :
    Fields.registerPart (.ofNat reg.val) wide = registerOf reg wide := by
  revert reg wide
  decide

theorem segmentPart_eq (sr : Fin 4) :
    Fields.segmentPart (.ofNat sr.val) = .whole (segments.get sr) := by
  revert sr
  decide

theorem baseOf_eq (rm : Fin 8) :
    Fields.baseOf (.ofNat rm.val) = Base.ofCode (.ofNat (rm.val + 1)) := by
  revert rm
  decide

theorem modRm_of_byte (b : UInt8) : modRm (modOf b) (regOf b) (rmOf b) = b := by
  have hlt := b.toNat_lt
  refine UInt8.toNat_inj.1 ?_
  rw [toNat_modRm]
  simp only [modOf, regOf, rmOf]
  omega

/-- The numbers of the second byte. -/
theorem bits_secondByte (bytes : Nat → UInt8) : bitsAt bytes 8 2 = (modOf (bytes 1)).val ∧
    bitsAt bytes 10 3 = (regOf (bytes 1)).val ∧ bitsAt bytes 13 3 = (rmOf (bytes 1)).val ∧
    bitsAt bytes 11 2 = (srOf (bytes 1)).val := by
  obtain ⟨hmod, hreg, hrm⟩ := bits_modRm (modRm_of_byte (bytes 1)).symm
  exact ⟨hmod, hreg, hrm, rfl⟩

theorem inSegment_place (bytes : Nat → UInt8) (wide : Bool) (segment : Register) :
    (place bytes (modOf (bytes 1)) (rmOf (bytes 1)) wide).inSegment segment =
      located bytes wide segment := by
  have hmod : (modOf (bytes 1) = 3) = ((modOf (bytes 1)).val = 3) := propext Fin.ext_iff
  simp only [place, located, register, registerPart_eq, baseOf_eq, hmod]
  split <;> rfl

end Opcode

/-! ## The slots -/

namespace Operands

variable (d : Bool) (place : Operand) (beside trailing : Option Operand)

theorem placeAll_arrange :
    Fields.placeAll (if d then ⟨beside, some place, none⟩ else ⟨some place, beside, none⟩)
      trailing.toList = .ok (arrange d place beside trailing) := by
  cases d <;> cases beside <;> cases trailing <;> rfl

theorem map_arrange (g : Operand → Operand) :
    (arrange d place beside trailing).map g =
      arrange d (g place) (beside.map g) (trailing.map g) := by
  cases d <;> cases beside <;> rfl

end Operands

/-! ## The formats -/

namespace Placed

/-- A field of one bit, or an implicit zero or one. -/
def isBit (x : Placed) : Bool :=
  x.field.shift == 0 && (x.field.bits == 1 || x.field.bits == 0 && x.field.value ≤ 1)

/-- An implicit one. -/
def isMark (x : Placed) : Bool :=
  x.field.shift == 0 && x.field.bits == 0 && x.field.value == 1

variable {x : Placed} (bytes : Nat → UInt8)

theorem of_isBit (h : x.isBit = true) : x.field.shift = 0 ∧ (x.value bytes).toNat ≤ 1 := by
  rw [isBit, Bool.and_eq_true, beq_iff_eq, Bool.or_eq_true, Bool.and_eq_true, beq_iff_eq,
    beq_iff_eq, decide_eq_true_eq] at h
  refine ⟨h.1, ?_⟩
  rcases h.2 with hbits | ⟨hbits, hvalue⟩
  · have hlt : bitsAt bytes x.place 1 < 2 := bitsAt_lt bytes x.place 1
    rw [value, hbits, if_neg (by decide), show (1 : UInt8).toNat = 1 from rfl,
      UInt32.toNat_ofNat_of_lt' (Nat.lt_trans hlt (by decide))]
    exact Nat.le_of_lt_succ hlt
  · rw [value, if_pos hbits]
    exact UInt32.le_iff_toNat_le.1 hvalue

theorem of_isMark (h : x.isMark = true) : x.field.shift = 0 ∧ x.value bytes = 1 := by
  rw [isMark, Bool.and_eq_true, Bool.and_eq_true, beq_iff_eq, beq_iff_eq, beq_iff_eq] at h
  exact ⟨h.1.1, (if_pos h.1.2).trans h.2⟩

end Placed

namespace Format

/-- What the formats with `mod` and `r/m` have in common. -/
structure Addressing (f : Format) : Prop where
  head : f.headSize = 2
  mod : f.placesOf .mod = [⟨8, Table.mod⟩]
  rm : f.placesOf .rm = [⟨13, Table.rm⟩]
  reg : f.placesOf .reg = [] ∨ f.placesOf .reg = [⟨10, Table.reg⟩]
  sr : f.placesOf .sr = [] ∨ f.placesOf .sr = [⟨11, Table.sr⟩]
  escape : f.placesOf .escape = [] ∨
    f.placesOf .escape = [⟨5, ⟨.escape, 3, 3, 0⟩⟩, ⟨10, ⟨.escape, 3, 0, 0⟩⟩]
  /-- A field of `d`, `s`, `w` and `v` is a single bit. -/
  bit : ∀ u ∈ [Usage.d, .s, .w, .v], (f.placesOf u).length ≤ 1 ∧ ∀ x ∈ f.placesOf u, x.isBit = true
  /-- Whether data follow is known before anything is read. -/
  mark : ∀ u ∈ [Usage.hasData, .wideData],
    (f.placesOf u).length ≤ 1 ∧ ∀ x ∈ f.placesOf u, x.isMark = true
  lacks : ∀ u ∈ [Usage.hasDisp, .dispAlwaysWide, .rmAlwaysWide, .disp, .relative],
    f.placesOf u = []
  /-- One operand at most follows the others. -/
  trailing : (f.mentions .v).toNat + (f.mentions .escape).toNat + (f.mentions .hasData).toNat ≤ 1

instance (f : Format) : Decidable f.Addressing :=
  decidable_of_iff (f.headSize = 2 ∧ f.placesOf .mod = [⟨8, Table.mod⟩] ∧
    f.placesOf .rm = [⟨13, Table.rm⟩] ∧
    (f.placesOf .reg = [] ∨ f.placesOf .reg = [⟨10, Table.reg⟩]) ∧
    (f.placesOf .sr = [] ∨ f.placesOf .sr = [⟨11, Table.sr⟩]) ∧
    (f.placesOf .escape = [] ∨
      f.placesOf .escape = [⟨5, ⟨.escape, 3, 3, 0⟩⟩, ⟨10, ⟨.escape, 3, 0, 0⟩⟩]) ∧
    (∀ u ∈ [Usage.d, .s, .w, .v],
      (f.placesOf u).length ≤ 1 ∧ ∀ x ∈ f.placesOf u, x.isBit = true) ∧
    (∀ u ∈ [Usage.hasData, .wideData],
      (f.placesOf u).length ≤ 1 ∧ ∀ x ∈ f.placesOf u, x.isMark = true) ∧
    (∀ u ∈ [Usage.hasDisp, .dispAlwaysWide, .rmAlwaysWide, .disp, .relative],
      f.placesOf u = []) ∧
    (f.mentions .v).toNat + (f.mentions .escape).toNat + (f.mentions .hasData).toNat ≤ 1)
    (by
      constructor
      · rintro ⟨head, mod, rm, reg, sr, escape, bit, mark, lacks, trailing⟩
        exact ⟨head, mod, rm, reg, sr, escape, bit, mark, lacks, trailing⟩
      · intro h
        exact ⟨h.head, h.mod, h.rm, h.reg, h.sr, h.escape, h.bit, h.mark, h.lacks, h.trailing⟩)

end Format

theorem Table.addressing : ∀ f ∈ formats, f.streams .mod = true → f.streams .rm = true →
    f.Addressing := by
  decide +kernel

namespace Format

variable {f : Format} {bytes : Nat → UInt8} {u : Usage}

theorem value_fieldsAt (hu : u ≠ .literal) :
    (f.fieldsAt bytes).value u =
      (f.placesOf u).foldl (fun acc x => acc ||| shiftUp (x.value bytes) x.field.shift) 0 := by
  rw [fieldsAt, collect, Fields.value, List.foldl_map, List.foldl_filter, placesOf,
    List.foldl_filter]
  congr 1
  funext acc x
  by_cases hx : x.field.usage = u
  · have hliteral : x.isLiteral = false := beq_eq_false_iff_ne.2 (hx ▸ hu)
    rw [hliteral, if_pos (beq_iff_eq.2 hx)]
    exact if_pos hx
  · rw [if_neg (mt beq_iff_eq.1 hx)]
    split
    · exact if_neg hx
    · rfl

theorem present_fieldsAt_eq_mentions (hu : u ≠ .literal) :
    (f.fieldsAt bytes).present u = f.mentions u := by
  rw [Bool.eq_iff_iff, Fields.present, List.any_eq_true, mentions, Bool.not_eq_true',
    List.isEmpty_eq_false_iff_exists_mem]
  simp only [fieldsAt, collect, placesOf, List.mem_map, List.mem_filter, Placed.isLiteral,
    Bool.not_eq_true', beq_eq_false_iff_ne, beq_iff_eq, decide_eq_true_eq]
  constructor
  · rintro ⟨-, ⟨x, ⟨hx, -⟩, rfl⟩, hu⟩
    exact ⟨x, hx, hu⟩
  · rintro ⟨x, hx, rfl⟩
    exact ⟨_, ⟨x, ⟨hx, hu⟩, rfl⟩, rfl⟩

/-- The value of a usage with a single field. -/
theorem value_of_placesOf {x : Placed} (hu : u ≠ .literal) (hx : f.placesOf u = [x])
    (hshift : x.field.shift = 0) : (f.fieldsAt bytes).value u = x.value bytes := by
  rw [value_fieldsAt hu, hx, List.foldl_cons, List.foldl_nil, hshift, UInt32.zero_or, shiftUp,
    if_pos (by decide)]
  exact UInt32.shiftLeft_zero

theorem value_of_placesOf_nil (hu : u ≠ .literal) (hx : f.placesOf u = []) :
    (f.fieldsAt bytes).value u = 0 := by
  rw [value_fieldsAt hu, hx, List.foldl_nil]

/-- What a field of one bit says. -/
theorem flag_of_bit (hu : u ≠ .literal) (hlength : (f.placesOf u).length ≤ 1)
    (hbit : ∀ x ∈ f.placesOf u, x.isBit = true) :
    (f.fieldsAt bytes).flag u = (f.numberOf bytes u == 1) ∧ f.numberOf bytes u ≤ 1 := by
  rw [Fields.flag, numberOf]
  rcases hplaces : f.placesOf u with _ | ⟨x, _ | ⟨y, rest⟩⟩
  · rw [value_of_placesOf_nil hu hplaces]
    exact ⟨rfl, Nat.zero_le 1⟩
  · obtain ⟨hshift, hle⟩ := Placed.of_isBit bytes (hbit x (by simp [hplaces]))
    rw [value_of_placesOf hu hplaces hshift]
    refine ⟨?_, hle⟩
    have hzero : x.value bytes = 0 ↔ (x.value bytes).toNat = 0 := UInt32.toNat_inj.symm
    rw [Bool.eq_iff_iff, bne_iff_ne, ne_eq, hzero, beq_iff_eq, List.head?_cons, Option.map_some,
      Option.getD_some]
    omega
  · rw [hplaces] at hlength
    simp at hlength

/-- An implicit one says that it is there. -/
theorem flag_of_mark (hu : u ≠ .literal) (hlength : (f.placesOf u).length ≤ 1)
    (hmark : ∀ x ∈ f.placesOf u, x.isMark = true) :
    (f.fieldsAt bytes).flag u = f.mentions u := by
  rw [Fields.flag, mentions]
  rcases hplaces : f.placesOf u with _ | ⟨x, _ | ⟨y, rest⟩⟩
  · rw [value_of_placesOf_nil hu hplaces]
    rfl
  · obtain ⟨hshift, hvalue⟩ := Placed.of_isMark bytes (hmark x (by simp [hplaces]))
    rw [value_of_placesOf hu hplaces hshift, hvalue]
    rfl
  · rw [hplaces] at hlength
    simp at hlength

/-- If one operand at most follows, it does not matter how the list of them is put together. -/
theorem filterMap_of_single {p q r : Bool} (h : p.toNat + q.toNat + r.toNat ≤ 1) {x y z : Operand} :
    [if p then some x else none, if q then some y else none, none,
      if r then some z else none].filterMap id =
      (if p then some x else if q then some y else if r then some z else none).toList := by
  revert h
  cases p <;> cases q <;> cases r <;> simp

theorem map_beside (f : Format) (bytes : Nat → UInt8) (segment : Register) :
    (f.beside bytes).map (Operand.inSegment segment) = f.beside bytes := by
  rw [beside]
  repeat' split
  all_goals rfl

theorem map_trailing (f : Format) (bytes : Nat → UInt8) (segment : Register) :
    (f.trailing bytes).map (Operand.inSegment segment) = f.trailing bytes := by
  rw [trailing]
  repeat' split
  all_goals rfl

namespace Addressing

variable (h : f.Addressing)

include h

theorem flag_eq (bytes : Nat → UInt8) {u : Usage} (hu : u ∈ [Usage.d, .s, .w, .v]) :
    (f.fieldsAt bytes).flag u = (f.numberOf bytes u == 1) ∧ f.numberOf bytes u ≤ 1 := by
  have hliteral : u ≠ .literal :=
    (show ∀ u ∈ [Usage.d, .s, .w, .v], u ≠ .literal by decide) u hu
  exact flag_of_bit hliteral (h.bit u hu).1 (h.bit u hu).2

theorem hasData_eq : (f.fieldsAt bytes).hasData = f.mentions .hasData :=
  flag_of_mark (by decide) (h.mark .hasData (by simp)).1 (h.mark .hasData (by simp)).2

theorem flag_wideData : (f.fieldsAt bytes).flag .wideData = f.mentions .wideData :=
  flag_of_mark (by decide) (h.mark .wideData (by simp)).1 (h.mark .wideData (by simp)).2

theorem locates :
    (f.fieldsAt bytes).Locates (Opcode.modOf (bytes 1)) (Opcode.rmOf (bytes 1)) := by
  obtain ⟨hmod, -, hrm, -⟩ := Opcode.bits_secondByte bytes
  refine ⟨List.all_eq_true.2 fun u hu => ?_, ?_, ?_, ?_⟩
  · obtain ⟨hlacks, hliteral⟩ : u ∈ [Usage.hasDisp, .dispAlwaysWide, .rmAlwaysWide, .disp,
        .relative] ∧ u ≠ .literal :=
      (show ∀ u ∈ [Usage.hasDisp, .dispAlwaysWide, .rmAlwaysWide, .disp],
        u ∈ [Usage.hasDisp, .dispAlwaysWide, .rmAlwaysWide, .disp, .relative] ∧ u ≠ .literal by
        decide) u hu
    rw [present_fieldsAt_eq_mentions hliteral, mentions, h.lacks u hlacks]
    rfl
  · rw [present_fieldsAt_eq_mentions (by decide), mentions, h.mod]
    rfl
  · rw [value_of_placesOf (by decide) h.mod rfl, ← hmod]
    rfl
  · rw [value_of_placesOf (by decide) h.rm rfl, ← hrm]
    rfl

theorem regOperand_eq : (f.fieldsAt bytes).regOperand = f.beside bytes := by
  obtain ⟨-, hreg, -, hsr⟩ := Opcode.bits_secondByte bytes
  rw [Fields.regOperand, beside, present_fieldsAt_eq_mentions (by decide),
    present_fieldsAt_eq_mentions (by decide), (h.flag_eq bytes (by simp)).1]
  split
  · rename_i hmentions
    have hplaces := h.sr.resolve_left fun hnil => by simp [mentions, hnil] at hmentions
    rw [value_of_placesOf (by decide) hplaces rfl, ← Opcode.segmentPart_eq, ← hsr]
    rfl
  · split
    · rename_i hmentions
      have hplaces := h.reg.resolve_left fun hnil => by simp [mentions, hnil] at hmentions
      rw [value_of_placesOf (by decide) hplaces rfl, ← Opcode.registerPart_eq, ← hreg]
      rfl
    · rfl

theorem value_escape (hmentions : f.mentions .escape = true) : (f.fieldsAt bytes).value .escape =
    .ofNat (8 * ((bytes 0).toNat % 8) + (Opcode.regOf (bytes 1)).val) := by
  have hjoin : ∀ a b : Fin 8,
      (0 : UInt32) ||| shiftUp (.ofNat a.val) 3 ||| shiftUp (.ofNat b.val) 0 =
        .ofNat (8 * a.val + b.val) := by decide
  obtain ⟨-, hreg, -⟩ := Opcode.bits_secondByte bytes
  have hplaces := h.escape.resolve_left fun hnil => by simp [mentions, hnil] at hmentions
  have hfirst : bitsAt bytes 5 3 = (Opcode.rmOf (bytes 0)).val :=
    congrArg (· % 8) (Nat.div_one _)
  rw [value_fieldsAt (by decide), hplaces]
  refine Eq.trans ?_ (hjoin (Opcode.rmOf (bytes 0)) (Opcode.regOf (bytes 1)))
  rw [← hfirst, ← hreg]
  rfl

theorem dataAt_eq (hdata : f.mentions .hasData = true) (n : Nat) :
    (f.fieldsAt bytes).dataAt bytes n = f.constantAt bytes n := by
  obtain ⟨hs, hle⟩ := h.flag_eq bytes (u := .s) (by simp)
  have hw := (h.flag_eq bytes (u := .w) (by simp)).1
  have hword : (Image.wordOf (bytes n) (bytes (n + 1))).toUInt32 =
      .ofNat ((bytes n).toNat + 256 * (bytes (n + 1)).toNat) := by
    rw [Nat.add_comm (bytes n).toNat, ← Image.toNat_wordOf, UInt32.ofNat_uInt16ToNat]
  rw [Fields.dataAt, h.hasData_eq, hdata, if_pos rfl, numberAt, Fields.dataIsWide,
    h.flag_wideData, hs, hw, hword, BitReader.extend, constantAt]
  obtain hs | hs : f.numberOf bytes .s = 0 ∨ f.numberOf bytes .s = 1 := by omega
  · rw [hs]
    cases f.mentions .wideData <;> cases f.numberOf bytes .w == 1 <;> rfl
  · rw [hs]
    cases f.mentions .wideData <;> cases f.numberOf bytes .w == 1 <;> rfl

theorem trailing_eq (displacement : Int16) (size : UInt32) :
    (f.fieldsAt bytes).trailing displacement ((f.fieldsAt bytes).dataAt bytes
      (2 + Opcode.dispCount (Opcode.modOf (bytes 1)) (Opcode.rmOf (bytes 1)))) size =
      (f.trailing bytes).toList := by
  have hrelative : (f.fieldsAt bytes).flag .relative = false := by
    rw [Fields.flag, value_of_placesOf_nil (by decide) (h.lacks .relative (by simp))]
    rfl
  rw [Fields.trailing, Format.trailing, present_fieldsAt_eq_mentions (by decide),
    present_fieldsAt_eq_mentions (by decide), (h.flag_eq bytes (by simp)).1, hrelative, h.hasData_eq,
    if_neg Bool.false_ne_true, filterMap_of_single h.trailing]
  refine congrArg Option.toList ?_
  split
  · rfl
  · split
    · rename_i hescape
      rw [h.value_escape hescape]
    · split
      · rename_i hdata
        rw [h.dataAt_eq hdata]
      · rfl

theorem operandsAt_eq (bytes : Nat → UInt8) (segment : Register) :
    ∃ ops, f.operandsAt bytes = .ok ops ∧
      ops.map (Operand.inSegment segment) = f.resolved bytes segment := by
  have hdisp : (f.fieldsAt bytes).dispSize =
      Opcode.dispCount (Opcode.modOf (bytes 1)) (Opcode.rmOf (bytes 1)) := h.locates.dispSize_eq
  have hoperands : f.operandsAt bytes = .ok (.arrange (f.numberOf bytes .d == 1)
      (Opcode.place bytes (Opcode.modOf (bytes 1)) (Opcode.rmOf (bytes 1))
        (f.numberOf bytes .w == 1)) (f.beside bytes) (f.trailing bytes)) := by
    rw [operandsAt, h.head, hdisp, Fields.operands, h.locates.present, Bool.not_true,
      Bool.and_false, if_neg Bool.false_ne_true, h.regOperand_eq, h.locates.rmOperand_eq, h.trailing_eq,
      (h.flag_eq bytes (u := .w) (by simp)).1, (h.flag_eq bytes (u := .d) (by simp)).1]
    exact Operands.placeAll_arrange ..
  refine ⟨_, hoperands, ?_⟩
  rw [Operands.map_arrange, Opcode.inSegment_place, map_beside, map_trailing]
  rfl

end Addressing
end Format

/-! ## Decoding -/

/-- **Operands follow the rules of `mod` and `r/m`.**  Every encoding with these two fields is
decoded wherever it describes the bytes.  Its operands are then those of `Format.resolved`, in the
segment that the prefixes select. -/
theorem decodeOne_resolves_operands {f : Format} (hf : f ∈ Table.formats)
    (hmod : f.streams .mod = true) (hrm : f.streams .rm = true) {image : Image} {cursor : Cursor}
    (h : f.Describes (image.along cursor)) (p : Pending) :
    ∃ x, decodeOne p image cursor = .ok x ∧ x.instruction.operation = f.operation ∧
      x.instruction.operands = f.resolved (image.along cursor) p.dataSegment := by
  have hw := Table.wellFormed f hf
  obtain ⟨ops, hops, hiff⟩ := hw.attempt_eq_ok_iff image cursor
  have hlimit : f.sizeAt (image.along cursor) ≤ 1048576 :=
    Nat.le_trans (hw.sizeAt_le _) (by decide)
  -- the accumulator of `xchg` has an implicit `mod`
  have hxchg : f = Table.xchgAccumulator → ¬ Table.nop.Describes (image.along cursor) := by
    rintro rfl
    cases hmod
  have hdecode := decodeOne_of_attempt hf ((hiff 1048576 _).2 ⟨⟨h, hlimit⟩, rfl⟩) hxchg p
  obtain ⟨ops', hops', hresolved⟩ :=
    (Table.addressing f hf hmod hrm).operandsAt_eq (image.along cursor) p.dataSegment
  obtain rfl : ops' = ops := Except.ok.inj (hops'.symm.trans hops)
  exact ⟨_, hdecode, rfl, hresolved⟩

/-- `sub` of a constant that is sign extended from a place with a displacement, in `es`. -/
theorem sub_resolves_operands :
    let f : Format := ⟨.sub, [Table.lit 6 0b100000, Table.s, Table.w, Table.mod,
      Table.lit 3 0b101, Table.rm, Table.data, Table.dataIfWide]⟩
    let image := Image.zero.setRange 0 [0x83, 0x6E, 0xFE, 0xFF]
    f ∈ Table.formats ∧ f.Describes (image.along ⟨0, 0⟩) ∧
      ∃ x, decodeOne ⟨.segment, .es⟩ image ⟨0, 0⟩ = .ok x ∧ x.instruction.operation = .sub ∧
        x.instruction.operands =
          ⟨some (.memory ⟨.es, .bp, -2⟩), some (.immediate 0xFFFFFFFF), none⟩ := by
  intro f image
  obtain ⟨hf, hmod, hrm, hdescribes, hresolved⟩ : f ∈ Table.formats ∧ f.streams .mod = true ∧
      f.streams .rm = true ∧ f.Describes (image.along ⟨0, 0⟩) ∧
      f.resolved (image.along ⟨0, 0⟩) .es =
        ⟨some (.memory ⟨.es, .bp, -2⟩), some (.immediate 0xFFFFFFFF), none⟩ := by
    decide +kernel
  obtain ⟨x, hx, hop, hoperands⟩ :=
    decodeOne_resolves_operands hf hmod hrm hdescribes ⟨.segment, .es⟩
  exact ⟨hf, hdescribes, x, hx, hop, hoperands.trans hresolved⟩

end I8086
