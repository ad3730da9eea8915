import I8086.Proofs.Layout

/-!
# What a format makes of the stream

`Format.attempt` in closed form. A well-formed format (`Format.WellFormed`) has a head of one or two
bytes that its fields fill exactly, and needs no more operand slots than there are. Whether it
describes a stream is then a question about the literals of the head, how many bytes follow the
head is a question about the fields (`Fields.tailSize`), and `attempt_eq` puts the two together:
the only other way for an attempt to fail is that the instruction has more bytes than may be read.
-/

set_option autoImplicit false

namespace I8086

open BitReader

/-! ## The bytes after the head -/

namespace Fields

def dispSize (f : Fields) : Nat :=
  if f.hasDisp then if f.dispIsWide then 2 else 1 else 0

def dataSize (f : Fields) : Nat :=
  if f.hasData then if f.dataIsWide then 2 else 1 else 0

/-- How many bytes follow the head. -/
def tailSize (f : Fields) : Nat := f.dispSize + f.dataSize

theorem tailSize_le (f : Fields) : f.tailSize ≤ 4 := by
  rw [tailSize, dispSize, dataSize]
  repeat' split
  all_goals omega

/-- The displacement if byte `n` is the first one after the head. -/
def dispAt (f : Fields) (bytes : Nat → UInt8) (n : Nat) : UInt32 :=
  if f.hasDisp then numberAt bytes n f.dispIsWide !f.dispIsWide else f.value .disp

/-- The data if byte `n` is the first one after the displacement. -/
def dataAt (f : Fields) (bytes : Nat → UInt8) (n : Nat) : UInt32 :=
  if f.hasData then numberAt bytes n f.dataIsWide (f.flag .s) else f.value .data

end Fields

section Tail

variable {image : Image} {cursor : Cursor} {limit : UInt32}

theorem readDisp_afterBytes {f : Fields} {n : Nat} {pending count : UInt8}
    (hn : n ≤ limit.toNat) :
    readDisp f (afterBytes image cursor limit n pending count) =
      if n + f.dispSize ≤ limit.toNat then
        .ok (f.dispAt (image.along cursor) n,
          afterBytes image cursor limit (n + f.dispSize) pending count)
      else .error .truncated := by
  rw [readDisp, Fields.dispSize, Fields.dispAt]
  by_cases h : f.hasDisp
  · simp only [if_pos h, liftRead_value_afterBytes hn]
  · simp only [if_neg h, Nat.add_zero, if_pos hn]

theorem readData_afterBytes {f : Fields} {n : Nat} {pending count : UInt8}
    (hn : n ≤ limit.toNat) :
    readData f (afterBytes image cursor limit n pending count) =
      if n + f.dataSize ≤ limit.toNat then
        .ok (f.dataAt (image.along cursor) n,
          afterBytes image cursor limit (n + f.dataSize) pending count)
      else .error .truncated := by
  rw [readData, Fields.dataSize, Fields.dataAt]
  by_cases h : f.hasData
  · simp only [if_pos h, liftRead_value_afterBytes hn]
  · simp only [if_neg h, Nat.add_zero, if_pos hn]

/-- Both numbers after the head, handed on to `k` together with the size of the instruction. -/
theorem bind_tail_afterBytes {α : Type} {f : Fields} {n : Nat} {pending count : UInt8}
    (hn : n ≤ limit.toNat) (k : UInt32 → UInt32 → UInt32 → Except Miss α) :
    (do
      let (disp, r) ← readDisp f (afterBytes image cursor limit n pending count)
      let (data, r) ← readData f r
      k disp data r.consumed) =
      if n + f.tailSize ≤ limit.toNat then
        k (f.dispAt (image.along cursor) n) (f.dataAt (image.along cursor) (n + f.dispSize))
          (.ofNat (n + f.tailSize))
      else .error .truncated := by
  rw [readDisp_afterBytes hn, Fields.tailSize, ← Nat.add_assoc]
  by_cases hd : n + f.dispSize ≤ limit.toNat
  · rw [if_pos hd]
    simp only [bind, Except.bind, readData_afterBytes hd]
    by_cases hs : n + f.dispSize + f.dataSize ≤ limit.toNat
    · rw [if_pos hs, if_pos hs]
      rfl
    · rw [if_neg hs, if_neg hs]
  · rw [if_neg hd, if_neg (by omega)]
    rfl

end Tail

/-! ## Operand slots -/

/-- The number of slots that are free. -/
def Operands.free (o : Operands) : Nat :=
  [o.first, o.second, o.third].countP Option.isNone

theorem Operands.free_add (a b : Option Operand) :
    Operands.free ⟨a, b, none⟩ + a.isSome.toNat + b.isSome.toNat = 3 := by
  cases a <;> cases b <;> rfl

theorem Operands.free_of_place {o p : Operands} {x : Operand} (h : o.place? x = some p) :
    p.free + 1 = o.free := by
  rcases o with ⟨_ | a, _ | b, _ | c⟩ <;> cases h <;> rfl

theorem Operands.place?_isSome {o : Operands} (x : Operand) (h : 0 < o.free) :
    ∃ p, o.place? x = some p := by
  rcases o with ⟨_ | a, _ | b, _ | c⟩
  case some.some.some => simp [free] at h
  all_goals exact ⟨_, rfl⟩

theorem Fields.placeAll_isOk {slots : Operands} {xs : List Operand} (h : xs.length ≤ slots.free) :
    ∃ ops, placeAll slots xs = .ok ops := by
  induction xs generalizing slots with
  | nil => exact ⟨slots, rfl⟩
  | cons x rest ih =>
    rw [List.length_cons] at h
    obtain ⟨p, hp⟩ := slots.place?_isSome x (by omega)
    have hfree := Operands.free_of_place hp
    obtain ⟨ops, hops⟩ := ih (show rest.length ≤ p.free by omega)
    exact ⟨ops, by rw [placeAll, hp]; exact hops⟩

namespace Fields

theorem foldl_of_not_present {f : Fields} {u : Usage} (h : f.present u = false) (acc : UInt32) :
    f.foldl (fun acc entry => if entry.1 = u then acc ||| entry.2 else acc) acc = acc := by
  induction f with
  | nil => rfl
  | cons entry rest ih =>
    rw [present, List.any_cons, Bool.or_eq_false_iff, decide_eq_false_iff_not] at h
    rw [List.foldl_cons, if_neg h.1]
    exact ih h.2

theorem present_of_flag {f : Fields} {u : Usage} (h : f.flag u = true) : f.present u = true := by
  cases hp : f.present u with
  | true => rfl
  | false => simp [flag, value, foldl_of_not_present hp] at h

/-- How many operands there can be, judged by the fields that occur. -/
def slotBound (f : Fields) : Nat :=
  (f.present .sr || f.present .reg).toNat + (f.present .mod).toNat + (f.present .v).toNat +
    (f.present .escape).toNat + (f.present .relative).toNat + (f.present .hasData).toNat

theorem isSome_regOperand (f : Fields) :
    f.regOperand.isSome = (f.present .sr || f.present .reg) := by
  rw [regOperand]
  cases f.present .sr <;> cases f.present .reg <;> rfl

theorem isSome_rmOperand (f : Fields) (displacement : Int16) :
    (f.rmOperand displacement).isSome = f.present .mod := by
  rw [rmOperand]
  cases f.present .mod with
  | false => rfl
  | true =>
    rw [Bool.not_true, if_neg Bool.false_ne_true]
    split <;> rfl

theorem length_filterMap_id (xs : List (Option Operand)) :
    (xs.filterMap id).length = (xs.map fun x => x.isSome.toNat).sum := by
  induction xs with
  | nil => rfl
  | cons x rest ih =>
    rw [List.map_cons, List.sum_cons, ← ih]
    cases x with
    | none => exact (Nat.zero_add _).symm
    | some v => exact Nat.add_comm _ 1

theorem length_trailing_le (f : Fields) (displacement : Int16) (data size : UInt32) :
    (f.trailing displacement data size).length ≤ (f.present .v).toNat +
      (f.present .escape).toNat + (f.present .relative).toNat + (f.present .hasData).toNat := by
  have hslot : ∀ {p q : Bool} {x : Operand}, (p = true → q = true) →
      (if p then some x else none).isSome.toNat ≤ q.toNat := by
    intro p q x h
    cases p with
    | false => exact Nat.zero_le _
    | true => rw [h rfl]; exact Nat.le_refl _
  rw [trailing, length_filterMap_id]
  simp only [List.map_cons, List.map_nil, List.sum_cons, List.sum_nil, Nat.add_zero,
    ← Nat.add_assoc]
  exact Nat.add_le_add (Nat.add_le_add (Nat.add_le_add (hslot id) (hslot id))
    (hslot present_of_flag)) (hslot present_of_flag)

theorem operands_isOk {f : Fields} (h : f.slotBound ≤ 3) (disp data size : UInt32) :
    ∃ ops, f.operands disp data size = .ok ops := by
  have hreg := f.isSome_regOperand
  have hrm := f.isSome_rmOperand disp.toUInt16.toInt16
  have htrail := f.length_trailing_le disp.toUInt16.toInt16 data size
  rw [slotBound, ← hreg, ← hrm] at h
  rw [operands]
  split
  · exact ⟨_, rfl⟩
  · refine placeAll_isOk (Nat.le_trans htrail ?_)
    split
    · have := Operands.free_add f.regOperand (f.rmOperand disp.toUInt16.toInt16)
      omega
    · have := Operands.free_add (f.rmOperand disp.toUInt16.toInt16) f.regOperand
      omega

end Fields

/-! ## Well-formed formats -/

namespace Format

/-- The fields with their places. -/
def places (format : Format) : List Placed := placesFrom 0 format.fields

/-- How many bytes the fields take. -/
def headSize (format : Format) : Nat := widthOf format.fields / 8

/-- The fields fill one or two bytes, none of them crosses the end of a byte, no literal is too
large for its bits, and there is a slot for every operand. -/
structure WellFormed (format : Format) : Prop where
  fits : ∀ x ∈ format.places, x.fits = true
  literals : ∀ x ∈ format.places, x.isLiteral = true → x.field.bits ≠ 0 →
    x.field.value.toNat < 2 ^ x.field.bits.toNat
  width : widthOf format.fields = 8 ∨ widthOf format.fields = 16
  slots : (collect (fun _ => 0) format.places).slotBound ≤ 3

instance (format : Format) : Decidable format.WellFormed :=
  decidable_of_iff ((∀ x ∈ format.places, x.fits = true) ∧
    (∀ x ∈ format.places, x.isLiteral = true → x.field.bits ≠ 0 →
      x.field.value.toNat < 2 ^ x.field.bits.toNat) ∧
    (widthOf format.fields = 8 ∨ widthOf format.fields = 16) ∧
    (collect (fun _ => 0) format.places).slotBound ≤ 3)
    ⟨fun h => ⟨h.1, h.2.1, h.2.2.1, h.2.2.2⟩, fun h => ⟨h.fits, h.literals, h.width, h.slots⟩⟩

/-- What the fields contribute when the format is laid over a stream. -/
def fieldsAt (format : Format) (bytes : Nat → UInt8) : Fields :=
  collect (Placed.value bytes) format.places

/-- All literals agree with the stream. -/
def Describes (format : Format) (bytes : Nat → UInt8) : Prop :=
  ∀ x ∈ format.places, x.agrees bytes = true

instance (format : Format) (bytes : Nat → UInt8) : Decidable (format.Describes bytes) :=
  inferInstanceAs (Decidable (∀ x ∈ format.places, x.agrees bytes = true))

/-- The number of bytes of the instruction that a stream holds in this format. -/
def sizeAt (format : Format) (bytes : Nat → UInt8) : Nat :=
  format.headSize + (format.fieldsAt bytes).tailSize

/-- The operands of that instruction. -/
def operandsAt (format : Format) (bytes : Nat → UInt8) : Except Miss Operands :=
  let f := format.fieldsAt bytes
  f.operands (f.dispAt bytes format.headSize) (f.dataAt bytes (format.headSize + f.dispSize))
    (.ofNat (format.sizeAt bytes))

variable {format : Format}

/-- Which fields occur is known before anything is read. -/
theorem present_fieldsAt (bytes : Nat → UInt8) (u : Usage) :
    (format.fieldsAt bytes).present u = Fields.present (collect (fun _ => 0) format.places) u := by
  simp only [fieldsAt, collect, Fields.present, List.any_map]
  rfl

theorem slotBound_fieldsAt (bytes : Nat → UInt8) :
    (format.fieldsAt bytes).slotBound = (collect (fun _ => 0) format.places).slotBound := by
  simp only [Fields.slotBound, present_fieldsAt]

theorem WellFormed.place_lt (hw : format.WellFormed) {x : Placed} (hx : x ∈ format.places)
    (h0 : x.field.bits ≠ 0) : x.place < 8 * format.headSize := by
  have hend := place_add_le_of_mem hx
  have hpos : 0 < x.field.bits.toNat := Nat.pos_of_ne_zero fun e => h0 (UInt8.toNat_inj.1 e)
  rcases hw.width with h | h
  · rw [headSize, h]; omega
  · rw [headSize, h]; omega

theorem WellFormed.headSize_le (hw : format.WellFormed) : format.headSize ≤ 2 := by
  have hbits : widthOf format.fields ≤ 16 := by
    rcases hw.width with h | h
    · omega
    · omega
  exact Nat.div_le_of_le_mul hbits

/-- **An attempt in closed form.** A well-formed format makes one instruction of a stream, and the
limit only decides whether that instruction is found. -/
theorem WellFormed.attempt_eq (hw : format.WellFormed) (image : Image) (cursor : Cursor) :
    ∃ ops, format.operandsAt (image.along cursor) = .ok ops ∧ ∀ limit : UInt32,
      format.attempt image cursor limit =
        if agreesWithin (image.along cursor) limit.toNat format.places then
          if format.sizeAt (image.along cursor) ≤ limit.toNat then
            .ok ⟨cursor.address.toWord, .ofNat (format.sizeAt (image.along cursor)),
              format.operation, (format.fieldsAt (image.along cursor)).modifiers, ops⟩
          else .error .truncated
        else .error .mismatch := by
  obtain ⟨ops, hops⟩ : ∃ ops, format.operandsAt (image.along cursor) = .ok ops :=
    Fields.operands_isOk (by rw [slotBound_fieldsAt]; exact hw.slots) _ _ _
  refine ⟨ops, hops, fun limit => ?_⟩
  have hhead : (0 + widthOf format.fields + 7) / 8 = format.headSize := by
    rcases hw.width with h | h <;> rw [headSize, h]
  obtain ⟨pending, hreader⟩ : ∃ pending, atPlace image cursor limit (0 + widthOf format.fields) =
      afterBytes image cursor limit format.headSize pending 0 := by
    rcases hw.width with h | h <;> exact ⟨_, by rw [atPlace, hhead, h]; rfl⟩
  rw [attempt, start_eq_atPlace, readFields_atPlace hw.fits (Nat.zero_le _), hhead, hreader,
    ← places]
  by_cases ha : agreesWithin (image.along cursor) limit.toNat format.places = true
  · rw [if_pos ha, if_pos ha, ← fieldsAt]
    by_cases hl : format.headSize ≤ limit.toNat
    · rw [if_pos hl]
      refine (bind_tail_afterBytes hl fun disp data size => do
        let operands ← (format.fieldsAt (image.along cursor)).operands disp data size
        pure (Instruction.mk cursor.address.toWord size format.operation
          (format.fieldsAt (image.along cursor)).modifiers operands)).trans ?_
      rw [← sizeAt, show Fields.operands _ _ _ _ = _ from hops]
      rfl
    · have hs : ¬ format.sizeAt (image.along cursor) ≤ limit.toNat := by rw [sizeAt]; omega
      rw [if_neg hl, if_neg hs]
      rfl
  · rw [if_neg ha, if_neg ha]
    rfl

/-! ## When an attempt succeeds -/

theorem WellFormed.sizeAt_le (hw : format.WellFormed) (bytes : Nat → UInt8) :
    format.sizeAt bytes ≤ 6 :=
  Nat.add_le_add hw.headSize_le (Fields.tailSize_le _)

theorem WellFormed.toNat_sizeAt (hw : format.WellFormed) (bytes : Nat → UInt8) :
    (UInt32.ofNat (format.sizeAt bytes)).toNat = format.sizeAt bytes :=
  UInt32.toNat_ofNat_of_lt' (Nat.lt_of_le_of_lt (hw.sizeAt_le bytes) (by decide))

theorem Describes.agreesWithin {bytes : Nat → UInt8} (h : format.Describes bytes) (limit : Nat) :
    agreesWithin bytes limit format.places = true :=
  List.all_eq_true.2 fun x hx => by rw [h x hx, Bool.or_true]

/-- Once the whole head may be read, all literals are compared. -/
theorem WellFormed.describes_of_agreesWithin (hw : format.WellFormed) {bytes : Nat → UInt8}
    {limit : Nat} (hl : format.headSize ≤ limit)
    (h : I8086.agreesWithin bytes limit format.places = true) : format.Describes bytes := by
  intro x hx
  have hx' := List.all_eq_true.1 h x hx
  by_cases h0 : x.field.bits = 0
  · simp [Placed.agrees, Placed.value, h0]
  · have hlt := hw.place_lt hx h0
    rwa [decide_eq_false (by omega), Bool.false_or] at hx'

/-- An attempt succeeds exactly if the format describes the stream and the instruction ends within
the limit. -/
theorem WellFormed.attempt_eq_ok_iff (hw : format.WellFormed) (image : Image) (cursor : Cursor) :
    ∃ ops, format.operandsAt (image.along cursor) = .ok ops ∧
      ∀ (limit : UInt32) (i : Instruction), format.attempt image cursor limit = .ok i ↔
        (format.Describes (image.along cursor) ∧
          format.sizeAt (image.along cursor) ≤ limit.toNat) ∧
        i = ⟨cursor.address.toWord, .ofNat (format.sizeAt (image.along cursor)),
          format.operation, (format.fieldsAt (image.along cursor)).modifiers, ops⟩ := by
  obtain ⟨ops, hops, h⟩ := hw.attempt_eq image cursor
  refine ⟨ops, hops, fun limit i => ?_⟩
  rw [h limit]
  constructor
  · intro hi
    split at hi
    · rename_i ha
      split at hi
      · rename_i hs
        have hl : format.headSize ≤ limit.toNat := Nat.le_trans (Nat.le_add_right _ _) hs
        exact ⟨⟨hw.describes_of_agreesWithin hl ha, hs⟩, (Except.ok.inj hi).symm⟩
      · cases hi
    · cases hi
  · rintro ⟨⟨hd, hs⟩, rfl⟩
    rw [if_pos (hd.agreesWithin _), if_pos hs]

/-- One mebibyte is enough for every instruction. -/
theorem WellFormed.attempt_isOk (hw : format.WellFormed) {image : Image} {cursor : Cursor}
    (hd : format.Describes (image.along cursor)) :
    ∃ i, format.attempt image cursor 1048576 = .ok i ∧ i.operation = format.operation := by
  obtain ⟨ops, -, hiff⟩ := hw.attempt_eq_ok_iff image cursor
  have hl := Nat.le_trans (hw.sizeAt_le (image.along cursor)) (show 6 ≤ 1048576 by decide)
  exact ⟨_, (hiff 1048576 _).2 ⟨⟨hd, hl⟩, rfl⟩, rfl⟩

theorem WellFormed.describes_of_attempt (hw : format.WellFormed) {image : Image} {cursor : Cursor}
    {limit : UInt32} {i : Instruction} (h : format.attempt image cursor limit = .ok i) :
    format.Describes (image.along cursor) := by
  obtain ⟨ops, -, hiff⟩ := hw.attempt_eq_ok_iff image cursor
  exact ((hiff limit i).1 h).1.1

theorem WellFormed.size_of_attempt (hw : format.WellFormed) {image : Image} {cursor : Cursor}
    {limit : UInt32} {i : Instruction} (h : format.attempt image cursor limit = .ok i) :
    i.size.toNat = format.sizeAt (image.along cursor) := by
  obtain ⟨ops, -, hiff⟩ := hw.attempt_eq_ok_iff image cursor
  rw [((hiff limit i).1 h).2]
  exact hw.toNat_sizeAt _

end Format
end I8086
