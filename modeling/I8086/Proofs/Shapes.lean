import I8086.Machine.Execute
import I8086.Proofs.Prefixes

/-!
# The operands that decoding produces

Whoever consumes an instruction relies on its operands: that their codes name registers and
addresses, that an addition has two of them to read, that a conditional jump has a distance.  The
formats do not say so.  Here it is read off the fields of a format, which are known before anything
is read from the stream.

* `Fields.admits_operands` says what an operand can be, for the fields of any format.
* `Fields.isPair_operands` and `Fields.first_operands_of_relative` say which slots are filled.
* `Format.Shaped` is the condition on a format, and `Table.shaped` checks it for the whole table.
* `Instruction.Shaped` is what it comes to for a decoded instruction (`shaped_of_decodeWithin`).
-/

set_option autoImplicit false

namespace I8086

/-! ## Kinds of operands and operations -/

namespace Operand

/-- The codes in an operand all name something. -/
def isNamed : Operand → Bool
  | register part => part.register.isNamed
  | memory place => place.base.isNamed && place.segment.isNamed
  | immediate _ | relative _ => true

/-- An operand that can be read, which a distance cannot. -/
def hasValue : Operand → Bool
  | relative _ => false
  | _ => true

@[simp] theorem hasValue_inSegment (r : Register) (x : Operand) :
    (x.inSegment r).hasValue = x.hasValue := by
  cases x <;> rfl

theorem isNamed_inSegment {r : Register} (hr : r.isNamed = true) {x : Operand}
    (h : x.isNamed = true) : (x.inSegment r).isNamed = true := by
  cases x with
  | memory place =>
    rw [isNamed, Bool.and_eq_true] at h
    rw [inSegment, isNamed, h.1, hr]
    rfl
  | register part => exact h
  | immediate value => rfl
  | relative distance => rfl

end Operand

namespace Operation

/-- The operations that the machine executes by reading two operands. -/
def readsTwo : Operation → Bool
  | mov | add | sub | cmp => true
  | _ => false

/-- The operations that jump by a distance if they jump at all. -/
def isShortJump : Operation → Bool
  | jcxz | loop | loopz | loopnz => true
  | op => (op.condition? 0).isSome

theorem isShortJump_of_condition? {op : Operation} {flags : UInt16} {taken : Bool}
    (h : op.condition? flags = some taken) : op.isShortJump = true := by
  cases op <;> first | rfl | cases h

end Operation

/-! ## Filling the slots -/

namespace Operands

/-- The first two slots are in use. -/
def isPair (o : Operands) : Bool := o.first.isSome && o.second.isSome

theorem mem_of_first {o : Operands} {x : Operand} (h : o.first = some x) : x ∈ o.toList :=
  List.mem_filterMap.2 ⟨o.first, by simp, h⟩

theorem mem_of_second {o : Operands} {x : Operand} (h : o.second = some x) : x ∈ o.toList :=
  List.mem_filterMap.2 ⟨o.second, by simp, h⟩

theorem mem_toList_pair {a b : Option Operand} {x : Operand}
    (h : x ∈ toList ⟨a, b, none⟩) : a = some x ∨ b = some x := by
  rw [toList, List.mem_filterMap] at h
  obtain ⟨y, hy, hyx⟩ := h
  simp only [List.mem_cons, List.not_mem_nil, or_false] at hy
  rcases hy with rfl | rfl | rfl
  · exact .inl hyx
  · exact .inr hyx
  · cases hyx

theorem mem_toList_of_place? {o p : Operands} {x y : Operand} (h : o.place? x = some p)
    (hy : y ∈ p.toList) : y ∈ o.toList ∨ y = x := by
  rcases o with ⟨_ | a, _ | b, _ | c⟩ <;> cases h <;>
    simp only [toList, List.filterMap_cons, List.filterMap_nil, id, List.mem_cons] at hy ⊢ <;>
    tauto

theorem isPair_of_place? {o p : Operands} {x : Operand} (h : o.place? x = some p)
    (ho : o.isPair = true) : p.isPair = true := by
  rcases o with ⟨_ | a, _ | b, _ | c⟩ <;> cases h <;> cases ho
  rfl

theorem first_of_place? {o p : Operands} {x y : Operand} (h : o.place? x = some p)
    (ho : o.first = some y) : p.first = some y := by
  rcases o with ⟨_ | a, _ | b, _ | c⟩ <;> cases h <;> cases ho <;> rfl

end Operands

namespace Fields

section PlaceAll

variable {slots ops : Operands} {xs : List Operand}

/-- Whatever placing one operand preserves, placing all of them preserves. -/
theorem placeAll_preserves {P : Operands → Prop}
    (hstep : ∀ {o p : Operands} {x : Operand}, o.place? x = some p → x ∈ xs → P o → P p)
    (h : placeAll slots xs = .ok ops) (hs : P slots) : P ops := by
  induction xs generalizing slots with
  | nil =>
    cases h
    exact hs
  | cons x rest ih =>
    rw [placeAll] at h
    split at h
    · rename_i p hp
      exact ih (fun hp hx => hstep hp (List.mem_cons_of_mem _ hx)) h
        (hstep hp List.mem_cons_self hs)
    · cases h

theorem mem_toList_of_placeAll (h : placeAll slots xs = .ok ops) {y : Operand}
    (hy : y ∈ ops.toList) : y ∈ slots.toList ∨ y ∈ xs := by
  refine placeAll_preserves (P := fun o => ∀ y ∈ o.toList, y ∈ slots.toList ∨ y ∈ xs)
    (fun hp hx ho y hy => ?_) h (fun y hy => .inl hy) y hy
  rcases Operands.mem_toList_of_place? hp hy with hy | rfl
  · exact ho y hy
  · exact .inr hx

/-- Two operands, wherever they come from, fill the first two slots. -/
theorem isPair_of_placeAll {a b : Option Operand} (h : placeAll ⟨a, b, none⟩ xs = .ok ops)
    (hcount : 2 ≤ a.isSome.toNat + b.isSome.toNat + xs.length) : ops.isPair = true := by
  have hkeep : ∀ {slots : Operands} {ys : List Operand}, placeAll slots ys = .ok ops →
      slots.isPair = true → ops.isPair = true :=
    placeAll_preserves (P := fun o => o.isPair = true) fun hp _ ho => Operands.isPair_of_place? hp ho
  match a, b, xs, hcount with
  | some a, some b, _, _ => exact hkeep h rfl
  | some a, none, x :: rest, _ =>
    exact hkeep (show placeAll ⟨some a, some x, none⟩ rest = .ok ops from h) rfl
  | none, some b, x :: rest, _ =>
    exact hkeep (show placeAll ⟨some x, some b, none⟩ rest = .ok ops from h) rfl
  | none, none, x :: y :: rest, _ =>
    exact hkeep (show placeAll ⟨some x, some y, none⟩ rest = .ok ops from h) rfl

end PlaceAll

/-! ## What an operand can be -/

/-- The operand names what it refers to, and it is a distance only if the fields ask for one. -/
structure Admits (f : Fields) (x : Operand) : Prop where
  isNamed : x.isNamed = true
  relative : x.hasValue = false → f.flag .relative = true

theorem Admits.of_hasValue {f : Fields} {x : Operand} (hn : x.isNamed = true)
    (hv : x.hasValue = true) : f.Admits x := by
  refine ⟨hn, ?_⟩
  intro h
  rw [hv] at h
  cases h

theorem isNamed_registerPart (field : UInt32) (wide : Bool) :
    (registerPart field wide).register.isNamed = true := by
  unfold registerPart
  split <;> rfl

theorem isNamed_segmentPart (field : UInt32) : (segmentPart field).register.isNamed = true := by
  rw [segmentPart]
  split <;> rfl

theorem isNamed_baseOf (rm : UInt32) : (baseOf rm).isNamed = true := by
  rw [baseOf]
  split <;> rfl

variable {f : Fields} {x : Operand}

theorem admits_regOperand (h : f.regOperand = some x) : f.Admits x := by
  rw [regOperand] at h
  split at h
  · cases h
    exact .of_hasValue (isNamed_segmentPart _) rfl
  · split at h
    · cases h
      exact .of_hasValue (isNamed_registerPart _ _) rfl
    · cases h

theorem admits_rmOperand {displacement : Int16} (h : f.rmOperand displacement = some x) :
    f.Admits x := by
  rw [rmOperand] at h
  split at h
  · cases h
  · split at h
    · cases h
      exact .of_hasValue (isNamed_registerPart _ _) rfl
    · cases h
      refine .of_hasValue ?_ rfl
      rw [Operand.isNamed]
      split
      · rfl
      · rw [isNamed_baseOf]
        rfl

theorem admits_trailing {displacement : Int16} {data size : UInt32}
    (h : x ∈ f.trailing displacement data size) : f.Admits x := by
  rw [trailing, List.mem_filterMap] at h
  obtain ⟨_, hmem, rfl⟩ := h
  simp only [List.mem_cons, List.not_mem_nil, or_false] at hmem
  rcases hmem with h | h | h | h
  · split at h
    · cases h
      split <;> exact .of_hasValue rfl rfl
    · cases h
  · split at h <;> cases h
    exact .of_hasValue rfl rfl
  · split at h <;> cases h
    rename_i hrelative
    exact ⟨rfl, fun _ => hrelative⟩
  · split at h <;> cases h
    exact .of_hasValue rfl rfl

theorem admits_operands {disp data size : UInt32} {ops : Operands}
    (h : f.operands disp data size = .ok ops) (hx : x ∈ ops.toList) : f.Admits x := by
  rw [operands] at h
  split at h
  · cases h
    simp only [Operands.toList, List.filterMap_cons, List.filterMap_nil, id, List.mem_cons,
      List.not_mem_nil, or_false] at hx
    rcases hx with rfl | rfl <;> exact .of_hasValue rfl rfl
  · rcases mem_toList_of_placeAll h hx with hx | hx
    · split at hx <;> rcases Operands.mem_toList_pair hx with hx | hx
      · exact admits_regOperand hx
      · exact admits_rmOperand hx
      · exact admits_rmOperand hx
      · exact admits_regOperand hx
    · exact admits_trailing hx

/-! ## Which slots are filled -/

theorem flag_eq_false_of_not_present {u : Usage} (h : f.present u = false) : f.flag u = false :=
  Bool.eq_false_iff.2 fun hf => Bool.false_ne_true (h.symm.trans (present_of_flag hf))

theorem toNat_hasData_le_length_trailing (displacement : Int16) (data size : UInt32) :
    f.hasData.toNat ≤ (f.trailing displacement data size).length := by
  cases hd : f.hasData with
  | false => exact Nat.zero_le _
  | true =>
    refine List.length_pos_of_mem (a := .immediate data) (List.mem_filterMap.2 ⟨_, ?_, rfl⟩)
    simp [hd]

/-- A register field, an address field and data: two of them make two operands. -/
theorem isPair_operands {disp data size : UInt32} {ops : Operands} (hfar : f.present .far = false)
    (hcount : 2 ≤ (f.present .sr || f.present .reg).toNat + (f.present .mod).toNat +
      f.hasData.toNat)
    (h : f.operands disp data size = .ok ops) : ops.isPair = true := by
  have hdata := f.toNat_hasData_le_length_trailing disp.toUInt16.toInt16 data size
  rw [← isSome_regOperand, ← f.isSome_rmOperand disp.toUInt16.toInt16] at hcount
  rw [operands, flag_eq_false_of_not_present hfar, Bool.false_and,
    if_neg Bool.false_ne_true] at h
  split at h
  · exact isPair_of_placeAll h (by omega)
  · exact isPair_of_placeAll h (by omega)

/-- The fields whose operands stand in front of a distance. -/
def beforeDistance : List Usage := [.sr, .reg, .mod, .v, .escape, .far]

theorem first_operands_of_relative {disp data size : UInt32} {ops : Operands}
    (hnone : ∀ u ∈ beforeDistance, f.present u = false) (hrelative : f.flag .relative = true)
    (h : f.operands disp data size = .ok ops) :
    ∃ distance, ops.first = some (.relative distance) := by
  have hreg : f.regOperand = none := by
    rw [← Option.not_isSome_iff_eq_none, isSome_regOperand, hnone .sr (by decide),
      hnone .reg (by decide)]
    exact Bool.false_ne_true
  have hrm : f.rmOperand disp.toUInt16.toInt16 = none := by
    rw [← Option.not_isSome_iff_eq_none, isSome_rmOperand, hnone .mod (by decide)]
    exact Bool.false_ne_true
  obtain ⟨distance, rest, htrailing⟩ : ∃ distance rest,
      f.trailing disp.toUInt16.toInt16 data size = .relative distance :: rest := by
    rw [trailing, hnone .v (by decide), hnone .escape (by decide), hrelative]
    exact ⟨_, _, rfl⟩
  refine ⟨distance, ?_⟩
  rw [operands, flag_eq_false_of_not_present (hnone .far (by decide)), Bool.false_and,
    if_neg Bool.false_ne_true, hreg, hrm, htrailing] at h
  simp only [ite_self, placeAll, Operands.place?] at h
  exact placeAll_preserves (P := fun o => o.first = some (.relative distance))
    (fun hp _ ho => Operands.first_of_place? hp ho) h rfl

end Fields

/-! ## Formats -/

/-- A flag is set exactly if one of the contributions is not zero. -/
theorem Fields.flag_eq_true_iff {f : Fields} {u : Usage} :
    f.flag u = true ↔ ∃ v, (u, v) ∈ f ∧ v ≠ 0 := by
  have hfold : ∀ acc : UInt32,
      f.foldl (fun acc entry => if entry.1 = u then acc ||| entry.2 else acc) acc ≠ 0 ↔
        acc ≠ 0 ∨ ∃ v, (u, v) ∈ f ∧ v ≠ 0 := by
    induction f with
    | nil => simp
    | cons entry rest ih =>
      intro acc
      obtain ⟨usage, v⟩ := entry
      rw [List.foldl_cons, ih]
      by_cases hu : usage = u
      · subst hu
        simp only [if_true, ne_eq, UInt32.or_eq_zero_iff, List.mem_cons, Prod.mk.injEq, true_and,
          or_and_right, exists_or, exists_eq_left]
        tauto
      · rw [if_neg hu]
        simp only [List.mem_cons, Prod.mk.injEq, Ne.symm hu, false_and, false_or]
  rw [flag, bne_iff_ne, value, hfold]
  simp

namespace Format

variable {format : Format}

/-- What is set over a stream of zeros is set by the format itself, so over every stream. -/
theorem flag_fieldsAt {u : Usage} (h : (format.fieldsAt fun _ => 0).flag u = true)
    (bytes : Nat → UInt8) : (format.fieldsAt bytes).flag u = true := by
  obtain ⟨v, hmem, hv⟩ := Fields.flag_eq_true_iff.1 h
  rw [fieldsAt, collect, List.mem_map] at hmem
  obtain ⟨x, hx, hxv⟩ := hmem
  have hzero : x.field.bits = 0 := by
    by_contra hbits
    have hread : x.value (fun _ => 0) = 0 := by
      rw [Placed.value, if_neg hbits, bitsAt, UInt8.toNat_zero, Nat.zero_div, Nat.zero_mod]
      rfl
    have hshift : ∀ n : UInt8, shiftUp 0 n = 0 := by
      intro n
      rw [shiftUp, UInt32.zero_shiftLeft, ite_self]
    rw [Placed.contribution, hread, hshift] at hxv
    exact hv (congrArg Prod.snd hxv).symm
  refine Fields.flag_eq_true_iff.2 ⟨v, ?_, hv⟩
  rw [fieldsAt, collect, List.mem_map]
  refine ⟨x, hx, ?_⟩
  rw [← hxv, Placed.contribution, Placed.contribution, Placed.value, Placed.value, if_pos hzero,
    if_pos hzero]

/-- The format provides the operands that the machine expects of its operation. -/
structure Shaped (format : Format) : Prop where
  pair : format.operation.readsTwo = true →
    (format.fieldsAt fun _ => 0).present .relative = false ∧
    (format.fieldsAt fun _ => 0).present .far = false ∧
    2 ≤ ((format.fieldsAt fun _ => 0).present .sr ||
          (format.fieldsAt fun _ => 0).present .reg).toNat +
        ((format.fieldsAt fun _ => 0).present .mod).toNat +
        (format.fieldsAt fun _ => 0).hasData.toNat
  distance : format.operation.isShortJump = true →
    (∀ u ∈ Fields.beforeDistance, (format.fieldsAt fun _ => 0).present u = false) ∧
    (format.fieldsAt fun _ => 0).flag .relative = true

instance (format : Format) : Decidable format.Shaped :=
  decidable_of_iff (_ ∧ _) ⟨fun h => ⟨h.1, h.2⟩, fun h => ⟨h.pair, h.distance⟩⟩

end Format

/-! ## Instructions -/

/-- The operands are what the machine expects. -/
structure Instruction.Shaped (i : Instruction) : Prop where
  isNamed : ∀ x ∈ i.operands.toList, x.isNamed = true
  pair : i.operation.readsTwo = true → ∃ a b,
    i.operands.first = some a ∧ i.operands.second = some b ∧
      a.hasValue = true ∧ b.hasValue = true
  distance : i.operation.isShortJump = true → ∃ distance,
    i.operands.first = some (.relative distance)

theorem Table.shaped : ∀ f ∈ formats, f.Shaped := by
  decide +kernel

theorem Table.shaped_of_attempt {f : Format} {image : Image} {cursor : Cursor} {limit : UInt32}
    {i : Instruction} (hf : f ∈ formats) (h : f.attempt image cursor limit = .ok i) :
    i.Shaped := by
  obtain ⟨ops, hops, hiff⟩ := (wellFormed f hf).attempt_eq_ok_iff image cursor
  obtain ⟨-, rfl⟩ := (hiff limit i).1 h
  have hpresent : ∀ u, (f.fieldsAt (image.along cursor)).present u =
      (f.fieldsAt fun _ => 0).present u := by
    intro u
    rw [Format.present_fieldsAt, Format.present_fieldsAt]
  refine ⟨fun x hx => (Fields.admits_operands hops hx).isNamed, ?_, ?_⟩
  · intro hop
    obtain ⟨hrelative, hfar, hcount⟩ := (shaped f hf).pair hop
    have hdata : (f.fieldsAt fun _ => 0).hasData.toNat ≤
        (f.fieldsAt (image.along cursor)).hasData.toNat := by
      cases hd : (f.fieldsAt fun _ => 0).hasData with
      | false => exact Nat.zero_le _
      | true => rw [Fields.hasData, Format.flag_fieldsAt hd]
    rw [← hpresent] at hrelative hfar
    rw [← hpresent, ← hpresent, ← hpresent] at hcount
    have hpair := Fields.isPair_operands hfar (Nat.le_trans hcount (by omega)) hops
    have hvalue : ∀ x ∈ ops.toList, x.hasValue = true := by
      intro x hx
      by_contra hx'
      have hflag := (Fields.admits_operands hops hx).relative (Bool.eq_false_iff.2 hx')
      rw [Fields.flag_eq_false_of_not_present hrelative] at hflag
      cases hflag
    obtain ⟨_ | a, _ | b, c⟩ := ops <;> cases hpair
    exact ⟨a, b, rfl, rfl, hvalue a (by simp [Operands.toList]), hvalue b (by simp [Operands.toList])⟩
  · intro hop
    obtain ⟨hnone, hrelative⟩ := (shaped f hf).distance hop
    exact Fields.first_operands_of_relative (fun u hu => (hpresent u).trans (hnone u hu))
      (Format.flag_fieldsAt hrelative _) hops

/-- The prefixes that an instruction takes with it do not change the shape of its operands. -/
theorem Instruction.Shaped.attach {i : Instruction} (h : i.Shaped) {p : Pending}
    (hp : p.dataSegment.isNamed = true) : (p.attach i).Shaped := by
  refine ⟨?_, ?_, ?_⟩
  · intro x hx
    rw [Pending.operands_attach, Operands.toList_map, List.mem_map] at hx
    obtain ⟨y, hy, rfl⟩ := hx
    exact Operand.isNamed_inSegment hp (h.isNamed y hy)
  · intro hop
    obtain ⟨a, b, ha, hb, hva, hvb⟩ := h.pair hop
    refine ⟨_, _, congrArg (Option.map (Operand.inSegment p.dataSegment)) ha,
      congrArg (Option.map (Operand.inSegment p.dataSegment)) hb, ?_, ?_⟩
    · rwa [Operand.hasValue_inSegment]
    · rwa [Operand.hasValue_inSegment]
  · intro hop
    obtain ⟨distance, hd⟩ := h.distance hop
    exact ⟨distance, congrArg (Option.map (Operand.inSegment p.dataSegment)) hd⟩

theorem Prefix.isNamed_of_segment? {b : UInt8} {r : Register} (h : segment? b = some r) :
    r.isNamed = true := by
  simp only [segment?] at h
  repeat' split at h
  all_goals cases h <;> rfl

section Decoded

variable {p : Pending} {image : Image} {cursor : Cursor} {limit : UInt32} {x : Decoded}

theorem shaped_of_decodeWithin (hp : p.dataSegment.isNamed = true)
    (h : decodeWithin p image cursor limit = .ok x) : x.instruction.Shaped := by
  obtain ⟨f, hf, found, ha, -, rfl, -⟩ := decodeWithin_eq_ok h
  exact (Table.shaped_of_attempt hf ha).attach hp

/-- Decoding leaves a register to wait for, and never a code that names none. -/
theorem isNamed_dataSegment_of_decodeWithin (hp : p.dataSegment.isNamed = true)
    (h : decodeWithin p image cursor limit = .ok x) : x.pending.dataSegment.isNamed = true := by
  rw [pending_of_decodeWithin h]
  split
  · rw [Pending.dataSegment_join]
    cases hs : Prefix.segment? (image.get cursor.address) with
    | none => exact hp
    | some r => exact Prefix.isNamed_of_segment? hs
  · rfl

end Decoded

theorem Pending.isNamed_dataSegment_through {p : Pending} (hp : p.dataSegment.isNamed = true)
    (calls : List (Image × Cursor)) : (p.through calls).dataSegment.isNamed = true := by
  induction calls using List.reverseRecOn with
  | nil => exact hp
  | append_singleton calls call ih =>
    rw [through_concat]
    cases hx : decodeOne (p.through calls) call.1 call.2 with
    | error cause => exact ih
    | ok x => exact isNamed_dataSegment_of_decodeWithin ih hx

end I8086
