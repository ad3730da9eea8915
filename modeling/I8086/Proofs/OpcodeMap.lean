import I8086.Proofs.Unambiguous

/-!
# The opcode map

Which byte strings are instructions, and how long they are, said without the table of formats: the
first byte and the byte after it decide both.

* `Opcode.isEncoding` and `Opcode.length` are the two halves of that map.
* `Format.Regular` is what makes the comparison with the table a finite one.  Of the second byte
  the encodings only look at the middle field, unless all of it has to read `0A`
  (`Opcode.extension`).  The two outer fields, `mod` and `r/m`, only decide the length of the
  displacement, which is the same question for all formats that have them (`dispSize_modRm`).
* `Opcode.follows_table` is the comparison, first byte by first byte.
* `Table.isEncoding_iff` and `Table.sizeAt_eq_length` say the same of every stream.
-/

set_option autoImplicit false

namespace I8086

/-! ## The map -/

namespace Opcode

def mod (second : UInt8) : UInt8 := second >>> 6

def reg (second : UInt8) : UInt8 := (second >>> 3) &&& 7

def rm (second : UInt8) : UInt8 := second &&& 7

/-- `b` is one of the bytes from `lo` to `hi`. -/
def within (lo hi b : UInt8) : Bool := lo ≤ b && b ≤ hi

/-- The first bytes after which a byte with `mod` and `r/m` stands. -/
def hasModRm (b : UInt8) : Bool :=
  (b < 0x40 && b % 8 < 4) || within 0x80 0x8F b || within 0xC4 0xC7 b || within 0xD0 0xD3 b ||
    within 0xD8 0xDF b || [0xF6, 0xF7, 0xFE, 0xFF].contains b

/-- The first bytes that start no instruction. -/
def isUnused (b : UInt8) : Bool :=
  within 0x60 0x6F b || [0xC0, 0xC1, 0xC8, 0xC9, 0xD6, 0xF1].contains b

/-- What a first byte demands of the second one. -/
def admits (b second : UInt8) : Bool :=
  if [0x8C, 0x8E].contains b then reg second < 4
  else if [0x8F, 0xC6, 0xC7].contains b then reg second == 0
  else if within 0xD0 0xD3 b then reg second != 6
  else if [0xD4, 0xD5].contains b then second == 0x0A
  else if [0xF6, 0xF7].contains b then reg second != 1
  else if b == 0xFE then reg second ≤ 1
  else if b == 0xFF then reg second != 7
  else true

/-- The two bytes start an instruction. -/
def isEncoding (b second : UInt8) : Bool := !isUnused b && admits b second

/-- Whether the second byte belongs to the head. -/
def headLength (b : UInt8) : Nat :=
  if hasModRm b || [0xD4, 0xD5].contains b then 2 else 1

def dispLength (b second : UInt8) : Nat :=
  if hasModRm b then
    if mod second == 1 then 1
    else if mod second == 2 || (mod second == 0 && rm second == 6) then 2
    else 0
  else if within 0xA0 0xA3 b || [0xE8, 0xE9, 0x9A, 0xEA].contains b then 2
  else if within 0x70 0x7F b || within 0xE0 0xE3 b || b == 0xEB then 1
  else 0

/-- The data that a first byte calls for. -/
def immediateLength (b : UInt8) : Nat :=
  if [0x9A, 0xEA, 0xC2, 0xCA, 0xC7, 0x81, 0xA9, 0xF7].contains b || within 0xB8 0xBF b ||
      (b < 0x40 && b % 8 == 5) then 2
  else if [0xC6, 0x80, 0x82, 0x83, 0xA8, 0xCD, 0xF6].contains b || within 0xB0 0xB7 b ||
      within 0xE4 0xE7 b || (b < 0x40 && b % 8 == 4) then 1
  else 0

/-- The first bytes that several operations share, of which only number zero has data. -/
def sharesData (b : UInt8) : Bool := [0xF6, 0xF7].contains b

def dataLength (b second : UInt8) : Nat :=
  if sharesData b && reg second != 0 then 0 else immediateLength b

/-- The number of bytes of the instruction that the two bytes start. -/
def length (b second : UInt8) : Nat :=
  headLength b + dispLength b second + dataLength b second

theorem length_le (b second : UInt8) : length b second ≤ 6 := by
  have hhead : headLength b ≤ 2 := by
    rw [headLength]
    split <;> decide
  have hdisp : dispLength b second ≤ 2 := by
    rw [dispLength]
    repeat' split
    all_goals decide
  have hdata : dataLength b second ≤ 2 := by
    rw [dataLength, immediateLength]
    repeat' split
    all_goals decide
  exact Nat.add_le_add (Nat.add_le_add hhead hdisp) hdata

end Opcode

/-! ## What the length depends on -/

/-- Fields of this usage decide the length of the displacement. -/
def Usage.sizesDisp (u : Usage) : Bool := [mod, rm, hasDisp, dispAlwaysWide].contains u

/-- Fields of this usage decide the length of the data. -/
def Usage.sizesData (u : Usage) : Bool := [hasData, wideData, s, w].contains u

namespace Fields

theorem value_filter {p : Usage → Bool} {u : Usage} (hu : p u = true) (f : Fields) :
    value (f.filter fun entry => p entry.1) u = f.value u := by
  have h : ∀ acc : UInt32, (f.filter fun entry => p entry.1).foldl
      (fun acc entry => if entry.1 = u then acc ||| entry.2 else acc) acc =
      f.foldl (fun acc entry => if entry.1 = u then acc ||| entry.2 else acc) acc := by
    induction f with
    | nil => exact fun _ => rfl
    | cons entry rest ih =>
      intro acc
      rw [List.filter_cons]
      by_cases hp : p entry.1 = true
      · rw [if_pos hp, List.foldl_cons, List.foldl_cons, ih]
      · have hne : entry.1 ≠ u := fun e => hp (e ▸ hu)
        rw [if_neg hp, List.foldl_cons, if_neg hne, ih]
  exact h 0

theorem dispSize_filter (f : Fields) :
    dispSize (f.filter fun entry => entry.1.sizesDisp) = f.dispSize := by
  have h : ∀ u, u.sizesDisp = true → value (f.filter fun entry => entry.1.sizesDisp) u = f.value u :=
    fun u hu => value_filter hu f
  have hdisp : hasDisp (f.filter fun entry => entry.1.sizesDisp) = f.hasDisp := by
    simp only [hasDisp, hasDirectAddress, flag, h .mod rfl, h .rm rfl, h .hasDisp rfl]
  have hwide : dispIsWide (f.filter fun entry => entry.1.sizesDisp) = f.dispIsWide := by
    simp only [dispIsWide, hasDirectAddress, flag, h .mod rfl, h .rm rfl, h .dispAlwaysWide rfl]
  rw [dispSize, dispSize, hdisp, hwide]

theorem dataSize_filter (f : Fields) :
    dataSize (f.filter fun entry => entry.1.sizesData) = f.dataSize := by
  have h : ∀ u, u.sizesData = true → value (f.filter fun entry => entry.1.sizesData) u = f.value u :=
    fun u hu => value_filter hu f
  have hdata : hasData (f.filter fun entry => entry.1.sizesData) = f.hasData := by
    simp only [hasData, flag, h .hasData rfl]
  have hwide : dataIsWide (f.filter fun entry => entry.1.sizesData) = f.dataIsWide := by
    simp only [dataIsWide, flag, h .wideData rfl, h .s rfl, h .w rfl]
  rw [dataSize, dataSize, hdata, hwide]

end Fields

theorem filter_collect (value : Placed → UInt32) (p : Usage → Bool) (xs : List Placed) :
    (collect value xs).filter (fun entry => p entry.1) =
      collect value (xs.filter fun x => p x.field.usage) := by
  rw [collect, collect, List.filter_map, List.filter_filter, List.filter_filter]
  congr 2
  exact funext fun x => Bool.and_comm _ _

/-- Fields that stand in one byte do not see the others. -/
theorem collect_value_of_byte {bytes : Nat → UInt8} {xs : List Placed} (k : Nat)
    (h : ∀ x ∈ xs, x.field.bits = 0 ∨ x.place / 8 = k) :
    collect (Placed.value bytes) xs = collect (Placed.value fun _ => bytes k) xs := by
  refine List.map_congr_left fun x hx => ?_
  have hvalue : x.value bytes = x.value fun _ => bytes k := by
    rw [Placed.value, Placed.value]
    rcases h x (List.mem_filter.1 hx).1 with h0 | h0
    · rw [if_pos h0, if_pos h0]
    · rw [bitsAt, bitsAt, h0]
  rw [Placed.contribution, Placed.contribution, hvalue]

namespace Format

def dispPlaces (format : Format) : List Placed :=
  format.places.filter fun x => x.field.usage.sizesDisp

def dataPlaces (format : Format) : List Placed :=
  format.places.filter fun x => x.field.usage.sizesData

theorem dispSize_fieldsAt (format : Format) (bytes : Nat → UInt8) :
    (format.fieldsAt bytes).dispSize =
      Fields.dispSize (collect (Placed.value bytes) format.dispPlaces) := by
  rw [dispPlaces, ← filter_collect, Fields.dispSize_filter, fieldsAt]

theorem dataSize_fieldsAt (format : Format) (bytes : Nat → UInt8) :
    (format.fieldsAt bytes).dataSize =
      Fields.dataSize (collect (Placed.value bytes) format.dataPlaces) := by
  rw [dataPlaces, ← filter_collect, Fields.dataSize_filter, fieldsAt]

/-- `mod` and `r/m` stand at the two ends of the second byte, and nothing else is said about the
displacement. -/
def isModRm (format : Format) : Bool :=
  format.dispPlaces == [⟨8, Table.mod⟩, ⟨13, Table.rm⟩]

end Format

theorem forall_byte {P : UInt8 → Prop} (h : ∀ n < 256, P (.ofNat n)) (b : UInt8) : P b := by
  have hb := h b.toNat b.toNat_lt
  rwa [UInt8.ofNat_toNat] at hb

/-- The displacement that `mod` and `r/m` call for. -/
theorem dispSize_modRm {format : Format} (h : format.isModRm = true) (bytes : Nat → UInt8)
    {first : UInt8} (hb : Opcode.hasModRm first = true) :
    (format.fieldsAt bytes).dispSize = Opcode.dispLength first (bytes 1) := by
  have hsecond : ∀ b : UInt8,
      Fields.dispSize (collect (Placed.value fun _ => b) [⟨8, Table.mod⟩, ⟨13, Table.rm⟩]) =
        if Opcode.mod b == 1 then 1
        else if Opcode.mod b == 2 || (Opcode.mod b == 0 && Opcode.rm b == 6) then 2
        else 0 :=
    forall_byte (by decide +kernel)
  rw [Format.dispSize_fieldsAt, beq_iff_eq.1 h, collect_value_of_byte 1 (by decide), hsecond,
    Opcode.dispLength, if_pos hb]

/-! ## The table and the map -/

namespace Opcode

/-- The part of the second byte that encodings look at. -/
def extension (second : UInt8) : UInt8 := if second = 0x0A then 0x0A else second &&& 0x38

def extensions : List UInt8 := [0x00, 0x08, 0x10, 0x18, 0x20, 0x28, 0x30, 0x38, 0x0A]

/-- What encodings fix in the second byte: nothing, the middle field, its top bit, or all bits. -/
def secondMasks : List (Nat × Nat) :=
  [(0, 0), (0x20, 0), (0xFF, 0x0A)] ++ (List.range 8).map fun v => (0x38, v <<< 3)

/-- Neither the map nor an encoding can tell a second byte from its extension. -/
theorem extension_spec : ∀ second, extension second ∈ extensions ∧
    reg (extension second) = reg second ∧
    (extension second == 0x0A) = (second == 0x0A) ∧
    ∀ m ∈ secondMasks, ((extension second).toNat &&& m.1).beq m.2 = (second.toNat &&& m.1).beq m.2 :=
  forall_byte (by decide +kernel)

theorem isEncoding_extension (b second : UInt8) :
    isEncoding b (extension second) = isEncoding b second := by
  simp only [isEncoding, admits, (extension_spec second).2.1, (extension_spec second).2.2.1]

theorem dataLength_extension (b second : UInt8) :
    dataLength b (extension second) = dataLength b second := by
  simp only [dataLength, (extension_spec second).2.1]

end Opcode

namespace Format

/-- Byte `k` has the bits that a format fixes. -/
def fitsByte (format : Format) (k : Nat) (byte : UInt8) : Bool :=
  (byte.toNat &&& format.mask k).beq (format.pattern k)

/-- What the encodings have in common: no two literals fix the same bit, not more of the second
byte is fixed than its extension shows, and the fields that decide the length stand in the first
byte or take no bits, but for the pair of `mod` and `r/m`. -/
structure Regular (format : Format) : Prop where
  literals : ∀ k < 2, ∀ x ∈ format.places, x.fixes k = true →
    format.mask k &&& x.mask = x.mask ∧ format.pattern k &&& x.mask = x.pattern
  second : (format.mask 1, format.pattern 1) ∈ Opcode.secondMasks
  data : ∀ x ∈ format.dataPlaces, x.field.bits = 0 ∨ x.place / 8 = 0
  disp : format.isModRm = true ∨ ∀ x ∈ format.dispPlaces, x.field.bits = 0 ∨ x.place / 8 = 0

instance (format : Format) : Decidable format.Regular :=
  decidable_of_iff ((∀ k < 2, ∀ x ∈ format.places, x.fixes k = true →
      format.mask k &&& x.mask = x.mask ∧ format.pattern k &&& x.mask = x.pattern) ∧
    (format.mask 1, format.pattern 1) ∈ Opcode.secondMasks ∧
    (∀ x ∈ format.dataPlaces, x.field.bits = 0 ∨ x.place / 8 = 0) ∧
    (format.isModRm = true ∨ ∀ x ∈ format.dispPlaces, x.field.bits = 0 ∨ x.place / 8 = 0))
    ⟨fun h => ⟨h.1, h.2.1, h.2.2.1, h.2.2.2⟩, fun h => ⟨h.literals, h.second, h.data, h.disp⟩⟩

theorem Regular.fitsByte_extension {format : Format} (hr : format.Regular) (second : UInt8) :
    format.fitsByte 1 (Opcode.extension second) = format.fitsByte 1 second :=
  (Opcode.extension_spec second).2.2.2 _ hr.second

/-- A format describes a stream if the first two bytes have the bits that it fixes. -/
theorem Regular.describes_iff {format : Format} (hr : format.Regular) (hw : format.WellFormed)
    {bytes : Nat → UInt8} :
    format.Describes bytes ↔
      format.fitsByte 0 (bytes 0) = true ∧ format.fitsByte 1 (bytes 1) = true := by
  simp only [fitsByte, Nat.beq_eq]
  refine ⟨fun h => ⟨hw.and_mask h 0, hw.and_mask h 1⟩, fun h x hx => ?_⟩
  by_cases hfree : x.isLiteral = false ∨ x.field.bits = 0
  · rcases hfree with h0 | h0 <;> simp [Placed.agrees, Placed.value, h0]
  · rw [not_or, Bool.not_eq_false] at hfree
    have hk : x.place / 8 < 2 := by
      have := hw.place_lt hx hfree.2
      have := hw.headSize_le
      omega
    have hfix : x.fixes (x.place / 8) = true := by simp [Placed.fixes, hfree]
    have hbyte : (bytes (x.place / 8)).toNat &&& format.mask (x.place / 8) =
        format.pattern (x.place / 8) := by
      rcases Nat.le_one_iff_eq_zero_or_eq_one.1 (Nat.le_of_lt_succ hk) with h0 | h0
      · exact h0 ▸ h.1
      · exact h0 ▸ h.2
    obtain ⟨hmask, hpattern⟩ := hr.literals _ hk x hx hfix
    rw [Placed.agrees_iff_and_mask (hw.fits x hx) hfix, ← hpattern, ← hbyte, Nat.and_assoc, hmask]

end Format

namespace Opcode

/-- What the map says about the length, asked of a format: all of it but the displacement that
`mod` and `r/m` call for. -/
def agreesOnLength (format : Format) (b : UInt8) : Bool :=
  format.headSize == headLength b && format.isModRm == hasModRm b &&
    (hasModRm b || (format.fieldsAt fun _ => b).dispSize == dispLength b 0) &&
    if sharesData b then
      extensions.all fun second => !format.fitsByte 1 second ||
        (format.fieldsAt fun _ => b).dataSize == dataLength b second
    else (format.fieldsAt fun _ => b).dataSize == immediateLength b

/-- The formats that a first byte leaves agree with the map, whatever byte follows. -/
def followsTable (b : UInt8) : Bool :=
  let left := Table.formats.filter fun f => f.fitsByte 0 b
  (extensions.all fun second => isEncoding b second == left.any fun f => f.fitsByte 1 second) &&
    left.all fun f => agreesOnLength f b

theorem follows_table : ∀ b, followsTable b = true :=
  forall_byte (by decide +kernel)

end Opcode

namespace Table

theorem regular : ∀ f ∈ formats, f.Regular := by
  decide +kernel

variable {f : Format} {bytes : Nat → UInt8}

theorem describes_iff (hf : f ∈ formats) :
    f.Describes bytes ↔ f.fitsByte 0 (bytes 0) = true ∧ f.fitsByte 1 (bytes 1) = true :=
  (regular f hf).describes_iff (wellFormed f hf)

/-- The two bytes that start an encoding are those that some entry describes. -/
theorem isEncoding_iff :
    Opcode.isEncoding (bytes 0) (bytes 1) = true ↔ ∃ f ∈ formats, f.Describes bytes := by
  have hall := (Bool.and_eq_true_iff.1 (Opcode.follows_table (bytes 0))).1
  have hmap := beq_iff_eq.1 (List.all_eq_true.1 hall _ (Opcode.extension_spec (bytes 1)).1)
  rw [Opcode.isEncoding_extension] at hmap
  rw [hmap, List.any_eq_true]
  refine exists_congr fun f => ?_
  rw [List.mem_filter, and_assoc]
  refine and_congr_right fun hf => ?_
  rw [describes_iff hf, (regular f hf).fitsByte_extension]

theorem agreesOnLength_of_describes (hf : f ∈ formats) (hd : f.Describes bytes) :
    Opcode.agreesOnLength f (bytes 0) = true := by
  have hall := (Bool.and_eq_true_iff.1 (Opcode.follows_table (bytes 0))).2
  exact List.all_eq_true.1 hall f (List.mem_filter.2 ⟨hf, ((describes_iff hf).1 hd).1⟩)

theorem dispSize_eq_dispLength (hf : f ∈ formats) (hd : f.Describes bytes) :
    (f.fieldsAt bytes).dispSize = Opcode.dispLength (bytes 0) (bytes 1) := by
  have h := agreesOnLength_of_describes hf hd
  simp only [Opcode.agreesOnLength, Bool.and_eq_true, Bool.or_eq_true, beq_iff_eq] at h
  obtain ⟨⟨⟨-, hmodRm⟩, hdisp⟩, -⟩ := h
  by_cases hm : Opcode.hasModRm (bytes 0) = true
  · exact dispSize_modRm (hmodRm.trans hm) bytes hm
  · have hfirst := (regular f hf).disp.resolve_left (hmodRm ▸ hm)
    rw [Format.dispSize_fieldsAt] at hdisp ⊢
    rw [collect_value_of_byte 0 hfirst, hdisp.resolve_left hm, Opcode.dispLength, Opcode.dispLength,
      if_neg hm, if_neg hm]

theorem dataSize_eq_dataLength (hf : f ∈ formats) (hd : f.Describes bytes) :
    (f.fieldsAt bytes).dataSize = Opcode.dataLength (bytes 0) (bytes 1) := by
  have h := (Bool.and_eq_true_iff.1 (agreesOnLength_of_describes hf hd)).2
  rw [Format.dataSize_fieldsAt] at h ⊢
  rw [collect_value_of_byte 0 (regular f hf).data, ← Opcode.dataLength_extension]
  by_cases hshared : Opcode.sharesData (bytes 0) = true
  · rw [if_pos hshared] at h
    have hext := List.all_eq_true.1 h _ (Opcode.extension_spec (bytes 1)).1
    rw [(regular f hf).fitsByte_extension, ((describes_iff hf).1 hd).2] at hext
    exact beq_iff_eq.1 hext
  · rw [if_neg hshared] at h
    rw [beq_iff_eq.1 h, Opcode.dataLength, Bool.eq_false_iff.2 hshared]
    rfl

/-- All entries that describe a stream give it the same length. -/
theorem sizeAt_eq_length (hf : f ∈ formats) (hd : f.Describes bytes) :
    f.sizeAt bytes = Opcode.length (bytes 0) (bytes 1) := by
  have h := agreesOnLength_of_describes hf hd
  simp only [Opcode.agreesOnLength, Bool.and_eq_true, beq_iff_eq] at h
  rw [Format.sizeAt, Fields.tailSize, dispSize_eq_dispLength hf hd, dataSize_eq_dataLength hf hd,
    h.1.1.1, Opcode.length, Nat.add_assoc]

end Table
end I8086
