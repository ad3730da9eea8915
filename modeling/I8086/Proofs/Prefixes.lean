import Mathlib.Data.List.DropRight
import Mathlib.Data.Nat.Bitwise
import I8086.Proofs.Limit

/-!
# Prefixes and the instruction they belong to

A prefix is decoded as an instruction of its own and waits for the next one.  This file says which
bytes are prefixes, what each of them leaves waiting, and what an instruction takes with it.

* `Prefix.modifiers` and `Prefix.segment?` give the meaning of the seven prefix bytes without the
  table of formats; `pending_of_decodeWithin` says that decoding follows it.  Whatever is no prefix
  leaves nothing waiting.
* `decodeSeries` decodes at one place after the other.  The places need not be neighbours, not even
  in one image, and some of them may hold no instruction.
* `through_eq_run` is the invariant of such a series: what waits is what the run of prefixes at its
  end adds up to (`prefixRun`).
* `decodeOne_takes_prefix_run` is what it comes to for the instruction after the run.
-/

set_option autoImplicit false

namespace I8086

/-! ## Sets of modifiers -/

namespace Modifiers

theorem ext_testBit {m n : Modifiers}
    (h : ∀ k, m.bits.toNat.testBit k = n.bits.toNat.testBit k) : m = n := by
  obtain ⟨m⟩ := m
  obtain ⟨n⟩ := n
  exact congrArg Modifiers.mk (UInt16.toNat_inj.1 (Nat.eq_of_testBit_eq h))

@[simp] theorem testBit_union (m n : Modifiers) (k : Nat) :
    (m.union n).bits.toNat.testBit k = (m.bits.toNat.testBit k || n.bits.toNat.testBit k) := by
  rw [union, UInt16.toNat_or, Nat.testBit_or]

@[simp] theorem testBit_inter (m n : Modifiers) (k : Nat) :
    (m.inter n).bits.toNat.testBit k = (m.bits.toNat.testBit k && n.bits.toNat.testBit k) := by
  rw [inter, UInt16.toNat_and, Nat.testBit_and]

@[simp] theorem none_union (m : Modifiers) : none.union m = m := by
  simp [none, union]

theorem union_assoc (m n o : Modifiers) : (m.union n).union o = m.union (n.union o) := by
  refine ext_testBit fun k => ?_
  simp only [testBit_union, Bool.or_assoc]

theorem union_inter (m n o : Modifiers) : (m.union n).inter o = (m.inter o).union (n.inter o) := by
  refine ext_testBit fun k => ?_
  simp only [testBit_union, testBit_inter]
  exact Bool.and_or_distrib_right ..

/-- A set that takes in part of itself does not change. -/
theorem union_union_inter_self (m n o q : Modifiers) :
    m.union (n.union ((o.union m).inter q)) = m.union (n.union (o.inter q)) := by
  refine ext_testBit fun k => ?_
  simp only [testBit_union, testBit_inter]
  cases m.bits.toNat.testBit k <;> simp

/-- Membership of a single modifier is a bit. -/
theorem has_eq_testBit {x : Modifiers} {k : Nat} (hx : x.bits.toNat = 2 ^ k) (m : Modifiers) :
    m.has x = m.bits.toNat.testBit k := by
  rw [has, Bool.eq_iff_iff, beq_iff_eq, ← UInt16.toNat_inj, UInt16.toNat_and, hx, Nat.and_two_pow]
  cases m.bits.toNat.testBit k with
  | true => simp
  | false => simpa using (Nat.two_pow_pos k).ne

theorem has_union {x : Modifiers} {k : Nat} (hx : x.bits.toNat = 2 ^ k) (m n : Modifiers) :
    (m.union n).has x = (m.has x || n.has x) := by
  rw [has_eq_testBit hx, has_eq_testBit hx, has_eq_testBit hx, testBit_union]

/-- The modifiers that prefixes add. -/
def ofPrefixes : Modifiers := ((lock.union repeated).union whileNotZero).union segment

/-- The modifiers that the encoding itself decides. -/
def ofEncoding : Modifiers := wide.union far

end Modifiers

/-! ## The prefix bytes -/

namespace Prefix

/-- The bytes that are prefixes: four overrides, `lock` and the two repetitions. -/
def bytes : List UInt8 := [0x26, 0x2E, 0x36, 0x3E, 0xF0, 0xF2, 0xF3]

/-- The segment register that an override names. -/
def segment? (b : UInt8) : Option Register :=
  if b = 0x26 then some .es
  else if b = 0x2E then some .cs
  else if b = 0x36 then some .ss
  else if b = 0x3E then some .ds
  else none

/-- What a prefix adds to the instruction behind it. -/
def modifiers (b : UInt8) : Modifiers :=
  if b = 0xF0 then .lock
  else if b = 0xF3 then .repeated
  else if b = 0xF2 then Modifiers.repeated.union .whileNotZero
  else if (segment? b).isSome then .segment
  else .none

/-- The modifiers of all prefixes of a run together. -/
def union (run : List UInt8) : Modifiers :=
  run.foldl (fun m b => m.union (modifiers b)) .none

/-- The segment that a run of prefixes selects: the one of the last override, or `ds`. -/
def segment (run : List UInt8) : Register :=
  (run.filterMap segment?).getLast?.getD .ds

theorem modifiers_ne_zero {b : UInt8} (hb : b ∈ bytes) : (modifiers b).bits ≠ 0 := by
  simp only [bytes, List.mem_cons, List.not_mem_nil, or_false] at hb
  rcases hb with rfl | rfl | rfl | rfl | rfl | rfl | rfl <;> decide

theorem modifiers_inter (b : UInt8) : (modifiers b).inter .ofPrefixes = modifiers b := by
  simp only [modifiers]
  repeat' split
  all_goals rfl

theorem modifiers_inter_ofEncoding (b : UInt8) : (modifiers b).inter .ofEncoding = .none := by
  simp only [modifiers]
  repeat' split
  all_goals rfl

theorem segment?_ne_blank {b : UInt8} {r : Register} (h : segment? b = some r) : r ≠ .blank := by
  simp only [segment?] at h
  rintro rfl
  repeat' split at h
  all_goals cases h

theorem union_concat (run : List UInt8) (b : UInt8) :
    union (run ++ [b]) = (union run).union (modifiers b) := by
  rw [union, List.foldl_append]
  rfl

theorem segment_concat (run : List UInt8) (b : UInt8) :
    segment (run ++ [b]) = (segment? b).getD (segment run) := by
  rw [segment, List.filterMap_append]
  cases h : segment? b with
  | none => simp [h, segment]
  | some r => simp [h]

theorem union_inter (run : List UInt8) : (union run).inter .ofPrefixes = union run := by
  induction run using List.reverseRecOn with
  | nil => rfl
  | append_singleton run b ih => rw [union_concat, Modifiers.union_inter, ih, modifiers_inter]

theorem union_inter_ofEncoding (run : List UInt8) : (union run).inter .ofEncoding = .none := by
  induction run using List.reverseRecOn with
  | nil => rfl
  | append_singleton run b ih =>
    rw [union_concat, Modifiers.union_inter, ih, modifiers_inter_ofEncoding]
    rfl

/-- An instruction means what its first byte says as a prefix. -/
def isMeaning (b : UInt8) (i : Instruction) : Bool :=
  match i.operation, i.operands.first with
  | .lock, _ => modifiers b == .lock && segment? b == none
  | .rep, _ =>
    modifiers b == Modifiers.repeated.union (i.modifiers.inter .whileNotZero) && segment? b == none
  | .segment, some (.register part) =>
    modifiers b == .segment && segment? b == some part.register
  | _, _ => false

end Prefix

/-- What waits once the prefix `b` was decoded. -/
def Pending.join (p : Pending) (b : UInt8) : Pending :=
  ⟨p.modifiers.union (Prefix.modifiers b), (Prefix.segment? b).getD p.segment⟩

namespace Pending

theorem after_attach_of_isMeaning {p : Pending} {b : UInt8} {i : Instruction}
    (h : Prefix.isMeaning b i = true) : p.after (p.attach i) = p.join b := by
  obtain ⟨address, size, operation, modifiers, ⟨first, second, third⟩⟩ := i
  simp only [Prefix.isMeaning] at h
  split at h
  · simp only [Bool.and_eq_true, beq_iff_eq] at h
    rw [join, h.1, h.2]
    rfl
  · simp only [Bool.and_eq_true, beq_iff_eq] at h
    rw [join, h.1, h.2]
    -- the prefixes that waited are among the modifiers by now, and are read back from there
    exact congrArg (Pending.mk · p.segment) (Modifiers.union_union_inter_self ..)
  · simp only [Bool.and_eq_true, beq_iff_eq] at h
    rw [join, h.1, h.2]
    rfl
  · cases h

theorem after_of_not_isPrefix {p : Pending} {i : Instruction} (h : i.isPrefix = false) :
    p.after i = clear := by
  obtain ⟨address, size, operation, modifiers, operands⟩ := i
  simp only [Instruction.isPrefix] at h
  cases operation with
  | lock => cases h
  | rep => cases h
  | segment => cases h
  | _ => rfl

theorem dataSegment_join (p : Pending) (b : UInt8) :
    (p.join b).dataSegment = (Prefix.segment? b).getD p.dataSegment := by
  rw [dataSegment, join]
  cases h : Prefix.segment? b with
  | none => rfl
  | some r => exact if_neg (Prefix.segment?_ne_blank h)

theorem waits_join {b : UInt8} (hb : b ∈ Prefix.bytes) (p : Pending) : (p.join b).waits = true := by
  rw [waits, bne_iff_ne]
  exact fun h => Prefix.modifiers_ne_zero hb (UInt16.or_eq_zero_iff.1 h).2

end Pending

/-! ## The formats of the prefixes -/

namespace Format

/-- What is asked of a format: one of a prefix has a head of one byte and nothing behind it, and
means what the byte says; one of any other operation describes no prefix byte, and its own
modifiers are none that prefixes add. -/
def knowsPrefixes (f : Format) : Bool :=
  if f.operation.isPrefix then
    f.places.all (fun x => x.field.bits == 0 || x.place / 8 == 0) && f.headSize == 1 &&
      (List.range 256).all fun n =>
        let b := UInt8.ofNat n
        let g := f.fieldsAt fun _ => b
        !f.fitsByte 0 b ||
          Prefix.bytes.contains b && !g.hasDisp && !g.hasData &&
            match f.operandsAt fun _ => b with
            | .ok ops => Prefix.isMeaning b ⟨0, 1, f.operation, g.modifiers, ops⟩
            | .error _ => false
  else
    !Fields.present (collect (fun _ => 0) f.places) .z &&
      Prefix.bytes.all fun b => !f.fitsByte 0 b

/-- A format without bytes behind a head of one byte sees no other byte. -/
theorem operandsAt_of_head {f : Format} {bytes : Nat → UInt8}
    (hplaces : ∀ x ∈ f.places, x.field.bits = 0 ∨ x.place / 8 = 0)
    (hdisp : (f.fieldsAt fun _ => bytes 0).hasDisp = false)
    (hdata : (f.fieldsAt fun _ => bytes 0).hasData = false) :
    f.fieldsAt bytes = f.fieldsAt (fun _ => bytes 0) ∧
      f.operandsAt bytes = f.operandsAt fun _ => bytes 0 := by
  have hfields : f.fieldsAt bytes = f.fieldsAt fun _ => bytes 0 := collect_value_of_byte 0 hplaces
  refine ⟨hfields, ?_⟩
  simp only [operandsAt, sizeAt, hfields, Fields.dispAt, Fields.dataAt, hdisp, hdata,
    Bool.false_eq_true, if_false]

end Format

/-- Only a repetition has a modifier of its own that prefixes add. -/
theorem Fields.modifiers_inter_ofPrefixes {f : Fields} (hz : f.present .z = false) :
    f.modifiers.inter .ofPrefixes = .none := by
  rw [modifiers, hz, Bool.false_and]
  cases f.flag .w <;> cases f.flag .far <;> rfl

theorem Fields.modifiers_inter_ofEncoding {f : Fields} (hz : f.present .z = false) :
    f.modifiers.inter .ofEncoding = f.modifiers := by
  rw [modifiers, hz, Bool.false_and]
  cases f.flag .w <;> cases f.flag .far <;> rfl

namespace Table

theorem knowsPrefixes : ∀ f ∈ formats, f.knowsPrefixes = true := by
  decide +kernel

variable {f : Format} {image : Image} {cursor : Cursor} {limit : UInt32} {i : Instruction}

theorem attempt_of_isPrefix (hf : f ∈ formats) (hp : f.operation.isPrefix = true)
    (h : f.attempt image cursor limit = .ok i) :
    image.along cursor 0 ∈ Prefix.bytes ∧ i.size = 1 ∧
      Prefix.isMeaning (image.along cursor 0) i = true := by
  have hknows := knowsPrefixes f hf
  rw [Format.knowsPrefixes, if_pos hp] at hknows
  simp only [Bool.and_eq_true, List.all_eq_true, Bool.or_eq_true, beq_iff_eq] at hknows
  obtain ⟨⟨hplaces, hhead⟩, hall⟩ := hknows
  have hw := wellFormed f hf
  have hfits := ((describes_iff hf).1 (hw.describes_of_attempt h)).1
  have hbyte := hall (image.along cursor 0).toNat (List.mem_range.2 (UInt8.toNat_lt _))
  rw [UInt8.ofNat_toNat, hfits] at hbyte
  simp only [Bool.not_true, Bool.false_eq_true, false_or, Bool.not_eq_true',
    List.contains_iff_mem] at hbyte
  obtain ⟨⟨⟨hmem, hdisp⟩, hdata⟩, hmeaning⟩ := hbyte
  obtain ⟨hfields, hoperands⟩ := Format.operandsAt_of_head hplaces hdisp hdata
  obtain ⟨ops, hops, hiff⟩ := hw.attempt_eq_ok_iff image cursor
  obtain ⟨-, rfl⟩ := (hiff limit i).1 h
  rw [← hoperands, hops, ← hfields] at hmeaning
  have hsize : f.sizeAt (image.along cursor) = 1 := by
    rw [Format.sizeAt, Fields.tailSize, Fields.dispSize, Fields.dataSize, hfields, hdisp, hdata,
      hhead]
    rfl
  exact ⟨hmem, congrArg UInt32.ofNat hsize, hmeaning⟩

theorem knows_of_not_isPrefix (hf : f ∈ formats) (hp : f.operation.isPrefix = false) :
    (∀ bytes, (f.fieldsAt bytes).present .z = false) ∧
      ∀ b ∈ Prefix.bytes, f.fitsByte 0 b = false := by
  have hknows := knowsPrefixes f hf
  rw [Format.knowsPrefixes, hp, if_neg Bool.false_ne_true] at hknows
  simp only [Bool.and_eq_true, List.all_eq_true, Bool.not_eq_true'] at hknows
  refine ⟨fun bytes => ?_, hknows.2⟩
  rw [Format.present_fieldsAt]
  exact hknows.1

theorem attempt_of_not_isPrefix (hf : f ∈ formats) (hp : f.operation.isPrefix = false)
    (h : f.attempt image cursor limit = .ok i) :
    image.along cursor 0 ∉ Prefix.bytes ∧ i.modifiers.inter .ofPrefixes = .none := by
  obtain ⟨hz, hbytes⟩ := knows_of_not_isPrefix hf hp
  have hw := wellFormed f hf
  have hfits := ((describes_iff hf).1 (hw.describes_of_attempt h)).1
  obtain ⟨ops, -, hiff⟩ := hw.attempt_eq_ok_iff image cursor
  obtain ⟨-, rfl⟩ := (hiff limit i).1 h
  refine ⟨fun hmem => ?_, Fields.modifiers_inter_ofPrefixes (hz _)⟩
  rw [hbytes _ hmem] at hfits
  cases hfits

theorem modifiers_of_not_isPrefix (hf : f ∈ formats) (hp : f.operation.isPrefix = false)
    (h : f.attempt image cursor limit = .ok i) :
    i.modifiers.inter .ofEncoding = i.modifiers := by
  obtain ⟨ops, -, hiff⟩ := (wellFormed f hf).attempt_eq_ok_iff image cursor
  obtain ⟨-, rfl⟩ := (hiff limit i).1 h
  exact Fields.modifiers_inter_ofEncoding ((knows_of_not_isPrefix hf hp).1 _)

end Table

/-! ## Decoding one instruction after some prefixes -/

section Decode

variable {p : Pending} {image : Image} {cursor : Cursor} {limit : UInt32} {x : Decoded}

/-- The entry that gives a decoded instruction, and the instruction before it takes the prefixes
with it: the same one whatever waits. -/
theorem decodeWithin_eq_ok (h : decodeWithin p image cursor limit = .ok x) :
    ∃ f ∈ Table.formats, ∃ found, f.attempt image cursor limit = .ok found ∧
      found.operation = f.operation ∧
      x = ⟨p.attach found, cursor.advance found.size, p.after (p.attach found)⟩ ∧
      ∀ q : Pending, decodeWithin q image cursor limit =
        .ok ⟨q.attach found, cursor.advance found.size, q.after (q.attach found)⟩ := by
  rw [decodeWithin, decodeWith] at h
  split at h
  · cases h
  · rename_i found hfound
    obtain ⟨f, hf, ha⟩ := firstMatch_eq_ok hfound
    obtain ⟨ops, -, hiff⟩ := (Table.wellFormed f hf).attempt_eq_ok_iff image cursor
    refine ⟨f, hf, found, ha, ?_, (Except.ok.inj h).symm, fun q => ?_⟩
    · rw [((hiff limit found).1 ha).2]
    · rw [decodeWithin, decodeWith, hfound]
      rfl

theorem isPrefix_iff_of_decodeWithin (h : decodeWithin p image cursor limit = .ok x) :
    x.instruction.isPrefix = true ↔ image.get cursor.address ∈ Prefix.bytes := by
  obtain ⟨f, hf, found, ha, hop, rfl, -⟩ := decodeWithin_eq_ok h
  have heq : (p.attach found).isPrefix = f.operation.isPrefix := congrArg Operation.isPrefix hop
  rw [heq]
  cases hp : f.operation.isPrefix with
  | true => exact iff_of_true rfl (Table.attempt_of_isPrefix hf hp ha).1
  | false => exact iff_of_false Bool.false_ne_true (Table.attempt_of_not_isPrefix hf hp ha).1

/-- A prefix joins what waited before it, and any other instruction leaves nothing. -/
theorem pending_of_decodeWithin (h : decodeWithin p image cursor limit = .ok x) :
    x.pending = if x.instruction.isPrefix then p.join (image.get cursor.address) else .clear := by
  obtain ⟨f, hf, found, ha, hop, rfl, -⟩ := decodeWithin_eq_ok h
  have heq : (p.attach found).isPrefix = f.operation.isPrefix := congrArg Operation.isPrefix hop
  cases hp : f.operation.isPrefix with
  | true =>
    rw [if_pos (heq.trans hp)]
    exact Pending.after_attach_of_isMeaning (Table.attempt_of_isPrefix hf hp ha).2.2
  | false =>
    rw [heq, hp, if_neg Bool.false_ne_true]
    exact Pending.after_of_not_isPrefix (heq.trans hp)

/-- Something waits after an instruction exactly if it is a prefix. -/
theorem waits_of_decodeWithin (h : decodeWithin p image cursor limit = .ok x) :
    x.pending.waits = x.instruction.isPrefix := by
  rw [pending_of_decodeWithin h]
  cases hp : x.instruction.isPrefix with
  | true => exact Pending.waits_join ((isPrefix_iff_of_decodeWithin h).1 hp) p
  | false => rfl

/-- A prefix byte is decoded wherever it stands, and is an instruction of one byte. -/
theorem decodeOne_of_mem_bytes (p : Pending) (hb : image.get cursor.address ∈ Prefix.bytes) :
    ∃ x, decodeOne p image cursor = .ok x ∧ x.instruction.isPrefix = true ∧
      x.instruction.size = 1 ∧ x.cursor = cursor.advance 1 ∧
      x.pending = p.join (image.get cursor.address) := by
  have hencoding : ∀ b ∈ Prefix.bytes, ∀ second, Opcode.isEncoding b second = true := by
    intro b hb second
    simp only [Prefix.bytes, List.mem_cons, List.not_mem_nil, or_false] at hb
    rcases hb with rfl | rfl | rfl | rfl | rfl | rfl | rfl <;> rfl
  obtain ⟨x, hx, -⟩ := decodeWithin_of_isEncoding p (hencoding _ hb (image.along cursor 1))
  have hp := (isPrefix_iff_of_decodeWithin hx).2 hb
  have hpending := pending_of_decodeWithin hx
  rw [if_pos hp] at hpending
  obtain ⟨f, hf, found, ha, hop, rfl, -⟩ := decodeWithin_eq_ok hx
  have hsize := (Table.attempt_of_isPrefix hf (hop ▸ hp) ha).2.1
  exact ⟨_, hx, hp, hsize, congrArg cursor.advance hsize, hpending⟩

end Decode

/-! ## A series of calls -/

/-- What waits after a call: a failed one changes nothing. -/
def Pending.resume (p : Pending) : Except DecodeFailure Decoded → Pending
  | .ok x => x.pending
  | .error _ => p

/-- What waits after a series of calls, each at a place of its own. -/
def Pending.through (p : Pending) (calls : List (Image × Cursor)) : Pending :=
  calls.foldl (fun p call => p.resume (decodeOne p call.1 call.2)) p

/-- What one call of a series found: the byte at its cursor and the outcome. -/
structure Finding where
  byte : UInt8
  outcome : Except DecodeFailure Decoded

namespace Finding

/-- The call decoded an instruction. -/
def succeeded (x : Finding) : Bool := x.outcome.toOption.isSome

/-- The call decoded a prefix. -/
def isPrefix (x : Finding) : Bool :=
  match x.outcome with
  | .ok x => x.instruction.isPrefix
  | .error _ => false

/-- The instruction and the cursor behind it, or why there are none. -/
def result (x : Finding) : Except DecodeFailure (Instruction × Cursor) :=
  x.outcome.map fun x => (x.instruction, x.cursor)

end Finding

/-- Decodes at one place after the other, and hands on what waits. -/
def decodeSeries (p : Pending) : List (Image × Cursor) → List Finding
  | [] => []
  | (image, cursor) :: rest =>
    let outcome := decodeOne p image cursor
    ⟨image.get cursor.address, outcome⟩ :: decodeSeries (p.resume outcome) rest

/-- The longest run of prefixes at the end of a series, failed calls left out. -/
def prefixRun (series : List Finding) : List UInt8 :=
  ((series.filter Finding.succeeded).rtakeWhile Finding.isPrefix).map Finding.byte

theorem Pending.through_concat (p : Pending) (calls : List (Image × Cursor)) (image : Image)
    (cursor : Cursor) :
    p.through (calls ++ [(image, cursor)]) =
      (p.through calls).resume (decodeOne (p.through calls) image cursor) := by
  rw [through, List.foldl_append]
  rfl

theorem decodeSeries_concat (p : Pending) (calls : List (Image × Cursor)) (image : Image)
    (cursor : Cursor) :
    decodeSeries p (calls ++ [(image, cursor)]) = decodeSeries p calls ++
      [⟨image.get cursor.address, decodeOne (p.through calls) image cursor⟩] := by
  induction calls generalizing p with
  | nil => rfl
  | cons call rest ih => exact congrArg _ (ih _)

theorem prefixRun_concat_error (series : List Finding) (b : UInt8) (cause : DecodeFailure) :
    prefixRun (series ++ [⟨b, .error cause⟩]) = prefixRun series := by
  rw [prefixRun, List.filter_append, List.filter_singleton]
  rw [show Finding.succeeded ⟨b, .error cause⟩ = false from rfl, cond_false, List.append_nil]
  rfl

theorem prefixRun_concat_ok (series : List Finding) (b : UInt8) (x : Decoded) :
    prefixRun (series ++ [⟨b, .ok x⟩]) =
      if x.instruction.isPrefix then prefixRun series ++ [b] else [] := by
  rw [prefixRun, List.filter_append, List.filter_singleton,
    show Finding.succeeded ⟨b, .ok x⟩ = true from rfl, cond_true, List.rtakeWhile_concat,
    show Finding.isPrefix ⟨b, .ok x⟩ = x.instruction.isPrefix from rfl]
  cases x.instruction.isPrefix with
  | false => rfl
  | true => exact List.map_append

/-- **What waits after a series** is what the run of prefixes at its end adds up to. -/
theorem Pending.through_eq_run {start : Pending} (hstart : start = .clear ∨ start = .blank)
    (calls : List (Image × Cursor)) :
    (start.through calls).modifiers = Prefix.union (prefixRun (decodeSeries start calls)) ∧
      (start.through calls).dataSegment = Prefix.segment (prefixRun (decodeSeries start calls)) := by
  induction calls using List.reverseRecOn with
  | nil => rcases hstart with rfl | rfl <;> exact ⟨rfl, rfl⟩
  | append_singleton calls call ih =>
    obtain ⟨image, cursor⟩ := call
    rw [through_concat, decodeSeries_concat]
    cases hx : decodeOne (start.through calls) image cursor with
    | error cause =>
      rw [prefixRun_concat_error]
      exact ih
    | ok x =>
      rw [prefixRun_concat_ok, resume, pending_of_decodeWithin hx]
      cases x.instruction.isPrefix with
      | false => exact ⟨rfl, rfl⟩
      | true =>
        rw [if_pos rfl, if_pos rfl, Prefix.union_concat, Prefix.segment_concat, dataSegment_join,
          ih.2, join, ih.1]
        exact ⟨rfl, rfl⟩

/-! ## Two ways to have nothing waiting -/

/-- The same prefixes wait, however it is written down. -/
def Pending.Same (p q : Pending) : Prop :=
  p.modifiers = q.modifiers ∧ p.dataSegment = q.dataSegment

namespace Pending.Same

variable {p q : Pending}

theorem attach (h : p.Same q) (i : Instruction) : p.attach i = q.attach i := by
  rw [Pending.attach, Pending.attach, h.1, h.2]

theorem join (h : p.Same q) (b : UInt8) : (p.join b).Same (q.join b) := by
  refine ⟨?_, ?_⟩
  · rw [Pending.join, Pending.join, h.1]
  · rw [dataSegment_join, dataSegment_join, h.2]

/-- Neither the outcome of a call nor what waits after it depends on how it is written down. -/
theorem decodeOne (h : p.Same q) (image : Image) (cursor : Cursor) :
    (Finding.mk (image.get cursor.address) (decodeOne p image cursor)).result =
        (Finding.mk (image.get cursor.address) (I8086.decodeOne q image cursor)).result ∧
      (p.resume (I8086.decodeOne p image cursor)).Same
        (q.resume (I8086.decodeOne q image cursor)) := by
  have hboth : ∀ x y, I8086.decodeOne p image cursor = .ok x →
      I8086.decodeOne q image cursor = .ok y → x.instruction = y.instruction →
      x.pending.Same y.pending := by
    intro x y hx hy heq
    rw [pending_of_decodeWithin hx, pending_of_decodeWithin hy, heq]
    split
    · exact h.join _
    · exact ⟨rfl, rfl⟩
  revert hboth
  rw [I8086.decodeOne, I8086.decodeOne, decodeWithin, decodeWithin, decodeWith, decodeWith]
  cases firstMatch image cursor 1048576 false Table.formats with
  | error cause => exact fun _ => ⟨rfl, h⟩
  | ok found =>
    simp only [h.attach found]
    exact fun hboth => ⟨rfl, hboth _ _ rfl rfl rfl⟩

theorem decodeSeries (h : p.Same q) (calls : List (Image × Cursor)) :
    (decodeSeries p calls).map Finding.result = (I8086.decodeSeries q calls).map Finding.result := by
  induction calls generalizing p q with
  | nil => rfl
  | cons call rest ih =>
    obtain ⟨hresult, hsame⟩ := h.decodeOne call.1 call.2
    rw [I8086.decodeSeries, I8086.decodeSeries, List.map_cons, List.map_cons, hresult, ih hsame]

end Pending.Same

/-! ## What an instruction takes with it -/

/-- The operand, moved to another segment if it is in memory. -/
def Operand.inSegment (segment : Register) : Operand → Operand
  | .memory place => .memory { place with segment }
  | operand => operand

theorem Operand.inSegment_comp (r s : Register) :
    Operand.inSegment r ∘ Operand.inSegment s = Operand.inSegment r :=
  funext fun x => by cases x <;> rfl

theorem Pending.operands_attach (p : Pending) (i : Instruction) :
    (p.attach i).operands = i.operands.map (Operand.inSegment p.dataSegment) := rfl

theorem Operands.map_map (f g : Operand → Operand) (o : Operands) :
    (o.map f).map g = o.map (g ∘ f) := by
  simp only [map, Option.map_map]

theorem Operands.toList_map (f : Operand → Operand) (o : Operands) :
    (o.map f).toList = o.toList.map f := by
  obtain ⟨first, second, third⟩ := o
  cases first <;> cases second <;> cases third <;> rfl

theorem Operands.segment_of_mem_map {o : Operands} {segment : Register} {place : MemoryOperand}
    (h : .memory place ∈ (o.map (Operand.inSegment segment)).toList) : place.segment = segment := by
  rw [toList_map] at h
  obtain ⟨y, -, hy⟩ := List.mem_map.1 h
  cases y with
  | memory _ => cases hy; rfl
  | _ => cases hy

/-- **Every prefix reaches its instruction, and none reaches another one.** In a series of calls
that starts with nothing waiting, the instruction after a run of prefixes has the modifiers of all
of them and the segment of the last override, and nothing waits any more.  Apart from that it is the
instruction that the same bytes give without prefixes. -/
theorem decodeOne_takes_prefix_run :
    (∀ calls : List (Image × Cursor),
      (decodeSeries .clear calls).map Finding.result =
        (decodeSeries .blank calls).map Finding.result) ∧
    ∀ start : Pending, start = .clear ∨ start = .blank →
      ∀ (calls : List (Image × Cursor)) (image : Image) (cursor : Cursor) (x : Decoded),
        decodeOne (start.through calls) image cursor = .ok x →
        x.instruction.isPrefix = false →
        let run := prefixRun (decodeSeries start calls)
        x.instruction.modifiers.inter .ofPrefixes = Prefix.union run ∧
        (∀ place, .memory place ∈ x.instruction.operands.toList →
          place.segment = Prefix.segment run) ∧
        (∃ alone, decodeOne .clear image cursor = .ok alone ∧
          x.instruction.operation = alone.instruction.operation ∧
          x.instruction.size = alone.instruction.size ∧
          x.instruction.modifiers.inter .ofEncoding =
            alone.instruction.modifiers.inter .ofEncoding ∧
          x.instruction.operands =
            alone.instruction.operands.map (Operand.inSegment (Prefix.segment run))) ∧
        x.pending.waits = false ∧ x.pending.dataSegment = .ds := by
  have hsame : Pending.clear.Same .blank := ⟨rfl, rfl⟩
  refine ⟨hsame.decodeSeries, ?_⟩
  intro start hstart calls image cursor x hx hp run
  obtain ⟨hmodifiers, hsegment⟩ := Pending.through_eq_run hstart calls
  have hpending := pending_of_decodeWithin hx
  rw [hp, if_neg Bool.false_ne_true] at hpending
  obtain ⟨f, hf, found, ha, hop, rfl, halone⟩ := decodeWithin_eq_ok hx
  have hown := (Table.attempt_of_not_isPrefix hf (hop ▸ hp) ha).2
  refine ⟨?_, ?_, ⟨_, halone .clear, rfl, rfl, ?_, ?_⟩, ?_⟩
  · rw [Pending.attach, Modifiers.union_inter, hown, hmodifiers, Prefix.union_inter,
      Modifiers.none_union]
  · intro place hplace
    rw [Pending.operands_attach, hsegment] at hplace
    exact Operands.segment_of_mem_map hplace
  · rw [Pending.attach, Modifiers.union_inter, hmodifiers, Prefix.union_inter_ofEncoding,
      Pending.attach, Modifiers.union_inter]
    rfl
  · rw [Pending.operands_attach, Pending.operands_attach, Operands.map_map,
      Operand.inSegment_comp, hsegment]
  · rw [hpending]
    exact ⟨rfl, rfl⟩

/-- `lock`, a byte that starts no instruction, `es` and then `mov ax, [bx]`. -/
theorem mov_takes_lock_and_es :
    let image := Image.zero.setRange 0 [0xF0, 0x60, 0x26, 0x8B, 0x07]
    let calls : List (Image × Cursor) := [(image, ⟨0, 0⟩), (image, ⟨0, 1⟩), (image, ⟨0, 2⟩)]
    ∃ x, decodeOne (Pending.blank.through calls) image ⟨0, 3⟩ = .ok x ∧
      x.instruction.isPrefix = false ∧
      x.instruction.modifiers.inter .ofPrefixes = Modifiers.lock.union .segment ∧
      (∀ place, .memory place ∈ x.instruction.operands.toList → place.segment = .es) ∧
      x.pending.waits = false := by
  intro image calls
  have hrun : prefixRun (decodeSeries .blank calls) = [0xF0, 0x26] ∧
      (decodeOne (Pending.blank.through calls) image ⟨0, 3⟩).toOption =
        some ⟨⟨3, 2, .mov, ⟨25⟩, ⟨some (.register (.whole .a)), some (.memory ⟨.es, .bx, 0⟩), none⟩⟩,
          ⟨0, 5⟩, .clear⟩ := by
    decide +kernel
  have hx := toOption_eq_some_iff.1 hrun.2
  obtain ⟨hmodifiers, hsegment, -, hwaits, -⟩ :=
    decodeOne_takes_prefix_run.2 .blank (.inr rfl) calls image ⟨0, 3⟩ _ hx rfl
  rw [hrun.1] at hmodifiers hsegment
  exact ⟨_, hx, rfl, hmodifiers, hsegment, hwaits⟩

end I8086
