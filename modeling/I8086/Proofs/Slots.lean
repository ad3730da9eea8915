import I8086.Proofs.Shapes

/-!
# Which slot an operand stands in

An instruction has three slots, and its fields decide which operand goes where.  Listings and the
machine take some of this for granted: that a jump has nothing but its distance, that a `lock` or a
repetition has no operands at all, and that the first operand of an addition can be written to.

* `Format.Arranged` is the condition on a format, and `Table.arranged` checks it for the whole
  table.
* `Instruction.Arranged` is what it comes to for a decoded instruction (`arranged_of_decodeWithin`).
-/

set_option autoImplicit false

namespace I8086

/-! ## Kinds of operands -/

/-- An operand that can be written to. -/
def Operand.isStored : Operand → Bool
  | register _ | memory _ => true
  | immediate _ | relative _ => false

@[simp] theorem Operand.isStored_inSegment (r : Register) (x : Operand) :
    (x.inSegment r).isStored = x.isStored := by
  cases x <;> rfl

/-- The operations that go by a distance if they have one. -/
def Operation.jumps : Operation → Bool
  | call | jmp => true
  | op => op.isShortJump

/-- The parts of registers that encodings have a number for. -/
def RegisterPart.encoded : List RegisterPart :=
  [.low .a, .low .b, .low .c, .low .d, .high .a, .high .b, .high .c, .high .d,
    .whole .a, .whole .b, .whole .c, .whole .d, .whole .sp, .whole .bp, .whole .si, .whole .di,
    .whole .es, .whole .cs, .whole .ss, .whole .ds]

theorem RegisterPart.isNamed_of_mem_encoded {part : RegisterPart} (h : part ∈ encoded) :
    part.register.isNamed = true :=
  (show ∀ part ∈ encoded, part.register.isNamed = true by decide) part h

namespace Fields

theorem registerPart_mem_encoded (field : UInt32) (wide : Bool) :
    registerPart field wide ∈ RegisterPart.encoded := by
  unfold registerPart
  split <;> simp [RegisterPart.encoded]

theorem segmentPart_mem_encoded (field : UInt32) : segmentPart field ∈ RegisterPart.encoded := by
  rw [segmentPart]
  split <;> simp [RegisterPart.encoded]

variable {f : Fields} {part : RegisterPart}

theorem mem_encoded_of_regOperand (h : f.regOperand = some (.register part)) :
    part ∈ RegisterPart.encoded := by
  rw [regOperand] at h
  split at h
  · cases h
    exact segmentPart_mem_encoded _
  · split at h
    · cases h
      exact registerPart_mem_encoded _ _
    · cases h

theorem mem_encoded_of_rmOperand {displacement : Int16}
    (h : f.rmOperand displacement = some (.register part)) : part ∈ RegisterPart.encoded := by
  rw [rmOperand] at h
  split at h
  · cases h
  · split at h
    · cases h
      exact registerPart_mem_encoded _ _
    · cases h

theorem mem_encoded_of_trailing {displacement : Int16} {data size : UInt32}
    (h : .register part ∈ f.trailing displacement data size) : part ∈ RegisterPart.encoded := by
  rw [trailing, List.mem_filterMap] at h
  obtain ⟨x, hx, hpart⟩ := h
  obtain rfl : x = some (.register part) := hpart
  simp only [List.mem_cons, List.not_mem_nil, or_false] at hx
  rcases hx with h | h | h | h
  · split at h
    · split at h
      · cases h
        simp [RegisterPart.encoded]
      · cases h
    · cases h
  all_goals
    split at h
    · cases h
    · cases h

theorem mem_encoded_of_operands {disp data size : UInt32} {ops : Operands}
    (h : f.operands disp data size = .ok ops) (hpart : .register part ∈ ops.toList) :
    part ∈ RegisterPart.encoded := by
  rw [operands] at h
  split at h
  · cases h
    rcases Operands.mem_toList_pair hpart with h | h
    · cases h
    · cases h
  · rcases mem_toList_of_placeAll h hpart with hslot | htrailing
    · split at hslot <;> rcases Operands.mem_toList_pair hslot with hpart | hpart
      · exact mem_encoded_of_regOperand hpart
      · exact mem_encoded_of_rmOperand hpart
      · exact mem_encoded_of_rmOperand hpart
      · exact mem_encoded_of_regOperand hpart
    · exact mem_encoded_of_trailing htrailing

/-! ## Fields that make few operands -/

/-- The fields that make an operand. -/
def operandUsages : List Usage := [.sr, .reg, .mod, .v, .escape, .relative, .hasData, .far]

variable {disp data size : UInt32}

theorem operands_of_trailing (hsr : f.present .sr = false) (hreg : f.present .reg = false)
    (hmod : f.present .mod = false) (hfar : f.present .far = false) :
    f.operands disp data size = placeAll .empty (f.trailing disp.toUInt16.toInt16 data size) := by
  have hregNone : f.regOperand = none := by
    rw [regOperand, hsr, hreg]
    rfl
  have hrmNone : f.rmOperand disp.toUInt16.toInt16 = none := by
    rw [rmOperand, hmod]
    rfl
  rw [operands, flag_eq_false_of_not_present hfar, Bool.false_and, if_neg Bool.false_ne_true,
    hregNone, hrmNone]
  simp only [ite_self]
  rfl

theorem operands_of_none (h : ∀ u ∈ operandUsages, f.present u = false) :
    f.operands disp data size = .ok .empty := by
  rw [operands_of_trailing (h .sr (by decide)) (h .reg (by decide)) (h .mod (by decide))
    (h .far (by decide)), trailing, h .v (by decide), h .escape (by decide), hasData,
    flag_eq_false_of_not_present (h .relative (by decide)),
    flag_eq_false_of_not_present (h .hasData (by decide))]
  rfl

/-- A distance stands alone. -/
theorem operands_of_relative (h : ∀ u ∈ operandUsages, u ≠ .relative → f.present u = false)
    (hrelative : f.flag .relative = true) :
    f.operands disp data size = .ok
      ⟨some (.relative (disp.toUInt16.toInt16.toInt32 + size.toInt32)), none, none⟩ := by
  rw [operands_of_trailing (h .sr (by decide) (by decide)) (h .reg (by decide) (by decide))
    (h .mod (by decide) (by decide)) (h .far (by decide) (by decide)), trailing,
    h .v (by decide) (by decide), h .escape (by decide) (by decide), hasData, hrelative,
    flag_eq_false_of_not_present (h .hasData (by decide) (by decide))]
  rfl

theorem isStored_of_regOperand {x : Operand} (h : f.regOperand = some x) : x.isStored = true := by
  rw [regOperand] at h
  split at h
  · cases h
    rfl
  · split at h
    · cases h
      rfl
    · cases h

theorem isStored_of_rmOperand {displacement : Int16} {x : Operand}
    (h : f.rmOperand displacement = some x) : x.isStored = true := by
  rw [rmOperand] at h
  split at h
  · cases h
  · split at h
    · cases h
      rfl
    · cases h
      rfl

/-- What `d` makes the destination is there, so it is the first operand. -/
theorem isStored_first_operands {ops : Operands} (hfar : f.present .far = false)
    (hreg : f.flag .d = true → (f.present .sr || f.present .reg) = true)
    (hmod : f.flag .d = false → f.present .mod = true)
    (h : f.operands disp data size = .ok ops) :
    ∃ x, ops.first = some x ∧ x.isStored = true := by
  have hkeep : ∀ {slots : Operands} {xs : List Operand} {x : Operand},
      placeAll slots xs = .ok ops → slots.first = some x → ops.first = some x := fun hp hx =>
    placeAll_preserves (P := fun o => o.first = some _)
      (fun hp _ ho => Operands.first_of_place? hp ho) hp hx
  rw [operands, flag_eq_false_of_not_present hfar, Bool.false_and,
    if_neg Bool.false_ne_true] at h
  dsimp only at h
  cases hd : f.flag .d with
  | true =>
    rw [hd, if_pos rfl] at h
    obtain ⟨x, hx⟩ := Option.isSome_iff_exists.1 ((isSome_regOperand f).trans (hreg hd))
    exact ⟨x, hkeep h hx, isStored_of_regOperand hx⟩
  | false =>
    rw [hd, if_neg Bool.false_ne_true] at h
    obtain ⟨x, hx⟩ := Option.isSome_iff_exists.1
      ((f.isSome_rmOperand disp.toUInt16.toInt16).trans (hmod hd))
    exact ⟨x, hkeep h hx, isStored_of_rmOperand hx⟩

end Fields

/-! ## Formats -/

namespace Format

variable {format : Format}

/-- No field can set the flag. -/
def neverSets (format : Format) (u : Usage) : Bool :=
  format.places.all fun x => x.field.usage != u || (x.field.bits == 0 && x.field.value == 0)

theorem flag_fieldsAt_of_neverSets {u : Usage} (h : format.neverSets u = true)
    (bytes : Nat → UInt8) : (format.fieldsAt bytes).flag u = false := by
  refine Bool.eq_false_iff.2 fun hflag => ?_
  obtain ⟨v, hmem, hv⟩ := Fields.flag_eq_true_iff.1 hflag
  rw [fieldsAt, collect, List.mem_map] at hmem
  obtain ⟨x, hx, hxv⟩ := hmem
  have hnever := List.all_eq_true.1 h x (List.mem_filter.1 hx).1
  simp only [Bool.or_eq_true, Bool.and_eq_true, bne_iff_ne, beq_iff_eq] at hnever
  rcases hnever with hne | ⟨hbits, hvalue⟩
  · exact hne (congrArg Prod.fst hxv)
  · have hzero : v = shiftUp 0 x.field.shift := by
      rw [← hvalue]
      have hread : x.value bytes = x.field.value := if_pos hbits
      rw [← hread]
      exact (congrArg Prod.snd hxv).symm
    rw [shiftUp, UInt32.zero_shiftLeft, ite_self] at hzero
    exact hv hzero

/-- The operands of the format stand where they are looked for. -/
structure Arranged (format : Format) : Prop where
  distance : (format.fieldsAt fun _ => 0).present .relative = true →
    (∀ u ∈ Fields.operandUsages, u ≠ .relative →
      (format.fieldsAt fun _ => 0).present u = false) ∧
    (format.fieldsAt fun _ => 0).flag .relative = true ∧ format.operation.jumps = true
  marker : format.operation = .lock ∨ format.operation = .rep →
    ∀ u ∈ Fields.operandUsages, (format.fieldsAt fun _ => 0).present u = false
  destination : format.operation.readsTwo = true →
    (((format.fieldsAt fun _ => 0).present .sr ||
        (format.fieldsAt fun _ => 0).present .reg) = true ∨ format.neverSets .d = true) ∧
    ((format.fieldsAt fun _ => 0).present .mod = true ∨
      (format.fieldsAt fun _ => 0).flag .d = true)

instance (format : Format) : Decidable format.Arranged :=
  decidable_of_iff (_ ∧ _ ∧ _)
    ⟨fun h => ⟨h.1, h.2.1, h.2.2⟩, fun h => ⟨h.distance, h.marker, h.destination⟩⟩

end Format

theorem Table.arranged : ∀ f ∈ formats, f.Arranged := by
  decide +kernel

/-! ## What waits -/

namespace Prefix

theorem has_far_union (run : List UInt8) : (union run).has .far = false := by
  have hbit := congrArg (fun m : Modifiers => m.bits.toNat.testBit 5) (union_inter_ofEncoding run)
  rw [Modifiers.testBit_inter, show Modifiers.ofEncoding.bits.toNat.testBit 5 = true from rfl,
    Bool.and_true] at hbit
  exact (Modifiers.has_eq_testBit (k := 5) rfl _).trans hbit

theorem has_segment_modifiers (b : UInt8) : (modifiers b).has .segment = (segment? b).isSome := by
  rw [modifiers]
  split
  · rename_i h
    rw [h]
    rfl
  · split
    · rename_i h
      rw [h]
      rfl
    · split
      · rename_i h
        rw [h]
        rfl
      · cases (segment? b).isSome with
        | true => rfl
        | false => rfl

/-- Without an override the segment is the usual one. -/
theorem segment_eq_ds {run : List UInt8} (h : (union run).has .segment = false) :
    segment run = .ds := by
  induction run using List.reverseRecOn with
  | nil => rfl
  | append_singleton run b ih =>
    rw [union_concat, Modifiers.has_union (k := 3) rfl, has_segment_modifiers, Bool.or_eq_false_iff,
      Option.isSome_eq_false_iff, Option.isNone_iff_eq_none] at h
    rw [segment_concat, h.2]
    exact ih h.1

theorem whole_segment_mem_encoded (run : List UInt8) :
    RegisterPart.whole (segment run) ∈ RegisterPart.encoded := by
  induction run using List.reverseRecOn with
  | nil => simp [segment, RegisterPart.encoded]
  | append_singleton run b ih =>
    rw [segment_concat]
    cases h : segment? b with
    | none => exact ih
    | some r =>
      simp only [segment?] at h
      repeat' split at h
      all_goals cases h <;> simp [RegisterPart.encoded]

end Prefix

/-- What waits is what a run of prefixes adds up to. -/
def Pending.OfRun (p : Pending) : Prop :=
  ∃ run : List UInt8, p.modifiers = Prefix.union run ∧ p.dataSegment = Prefix.segment run

namespace Pending.OfRun

variable {p : Pending}

theorem clear : Pending.clear.OfRun := ⟨[], rfl, rfl⟩

theorem through (calls : List (Image × Cursor)) : (Pending.clear.through calls).OfRun :=
  ⟨_, through_eq_run (.inl rfl) calls⟩

theorem whole_dataSegment_mem_encoded (h : p.OfRun) :
    RegisterPart.whole p.dataSegment ∈ RegisterPart.encoded := by
  obtain ⟨run, -, hsegment⟩ := h
  rw [hsegment]
  exact Prefix.whole_segment_mem_encoded run

theorem isNamed_dataSegment (h : p.OfRun) : p.dataSegment.isNamed = true :=
  RegisterPart.isNamed_of_mem_encoded h.whole_dataSegment_mem_encoded

theorem has_far (h : p.OfRun) : p.modifiers.has .far = false := by
  obtain ⟨run, hmodifiers, -⟩ := h
  rw [hmodifiers]
  exact Prefix.has_far_union run

theorem dataSegment_eq_ds (h : p.OfRun) (hsegment : p.modifiers.has .segment = false) :
    p.dataSegment = .ds := by
  obtain ⟨run, hmodifiers, hdata⟩ := h
  rw [hdata]
  exact Prefix.segment_eq_ds (hmodifiers ▸ hsegment)

theorem join (h : p.OfRun) (b : UInt8) : (p.join b).OfRun := by
  obtain ⟨run, hmodifiers, hsegment⟩ := h
  refine ⟨run ++ [b], ?_, ?_⟩
  · rw [Prefix.union_concat, Pending.join, hmodifiers]
  · rw [Prefix.segment_concat, dataSegment_join, hsegment]

theorem decodeWithin (h : p.OfRun) {image : Image} {cursor : Cursor} {limit : UInt32} {x : Decoded}
    (hx : decodeWithin p image cursor limit = .ok x) : x.pending.OfRun := by
  rw [pending_of_decodeWithin hx]
  cases x.instruction.isPrefix with
  | false => exact clear
  | true => exact h.join _

end Pending.OfRun

/-! ## Instructions -/

theorem Fields.has_far_modifiers (f : Fields) : f.modifiers.has .far = f.flag .far := by
  rw [modifiers]
  cases f.flag .w <;> cases f.flag .far <;> cases f.present .z && !f.flag .z <;> rfl

/-- The operands stand where they are looked for. -/
structure Instruction.Arranged (i : Instruction) : Prop where
  encoded : ∀ part, .register part ∈ i.operands.toList → part ∈ RegisterPart.encoded
  distance : ∀ d, .relative d ∈ i.operands.toList →
    i.operands = ⟨some (.relative d), none, none⟩ ∧ i.modifiers.has .far = false ∧
      i.operation.jumps = true
  marker : i.operation = .lock ∨ i.operation = .rep → i.operands = .empty
  destination : i.operation.readsTwo = true →
    i.modifiers.has .far = false ∧ ∃ x, i.operands.first = some x ∧ x.isStored = true

theorem Table.arranged_of_attempt {f : Format} {image : Image} {cursor : Cursor} {limit : UInt32}
    {i : Instruction} (hf : f ∈ formats) (h : f.attempt image cursor limit = .ok i) :
    i.Arranged := by
  obtain ⟨ops, hops, hiff⟩ := (wellFormed f hf).attempt_eq_ok_iff image cursor
  obtain ⟨-, rfl⟩ := (hiff limit i).1 h
  have hpresent : ∀ u, (f.fieldsAt (image.along cursor)).present u =
      (f.fieldsAt fun _ => 0).present u := by
    intro u
    rw [Format.present_fieldsAt, Format.present_fieldsAt]
  have harranged := arranged f hf
  refine ⟨fun part => Fields.mem_encoded_of_operands hops, ?_, ?_, ?_⟩
  · intro d hd
    have hrelative := Fields.present_of_flag ((Fields.admits_operands hops hd).relative rfl)
    obtain ⟨hnone, hflag, hjumps⟩ := harranged.distance (hpresent _ ▸ hrelative)
    have hnone' : ∀ u ∈ Fields.operandUsages, u ≠ .relative →
        (f.fieldsAt (image.along cursor)).present u = false :=
      fun u hu hne => (hpresent u).trans (hnone u hu hne)
    have halone := hops.symm.trans
      (Fields.operands_of_relative hnone' (Format.flag_fieldsAt hflag _))
    cases halone
    have hfar := Fields.flag_eq_false_of_not_present (hnone' .far (by decide) (by decide))
    have hsame := List.mem_singleton.1 hd
    cases hsame
    exact ⟨rfl, (Fields.has_far_modifiers _).trans hfar, hjumps⟩
  · intro hop
    exact Except.ok.inj (hops.symm.trans (Fields.operands_of_none fun u hu =>
      (hpresent u).trans (harranged.marker hop u hu)))
  · intro hop
    obtain ⟨hreg, hmod⟩ := harranged.destination hop
    have hfar := (hpresent .far).trans ((shaped f hf).pair hop).2.1
    refine ⟨(Fields.has_far_modifiers _).trans (Fields.flag_eq_false_of_not_present hfar),
      Fields.isStored_first_operands hfar ?_ ?_ hops⟩
    · intro hd
      rw [hpresent, hpresent]
      refine hreg.resolve_right fun hnever => ?_
      rw [Format.flag_fieldsAt_of_neverSets hnever] at hd
      cases hd
    · intro hd
      rw [hpresent]
      refine hmod.resolve_right fun hset => ?_
      rw [Format.flag_fieldsAt hset] at hd
      cases hd

/-- Prefixes have no registers to add. -/
theorem Pending.register_mem_of_attach {p : Pending} {i : Instruction} {part : RegisterPart}
    (h : .register part ∈ (p.attach i).operands.toList) : .register part ∈ i.operands.toList := by
  rw [operands_attach, Operands.toList_map, List.mem_map] at h
  obtain ⟨x, hx, hsegment⟩ := h
  cases x with
  | register part' =>
    cases hsegment
    exact hx
  | memory place => cases hsegment
  | immediate value => cases hsegment
  | relative distance => cases hsegment

/-- The prefixes that an instruction takes with it leave its operands in their slots. -/
theorem Instruction.Arranged.attach {i : Instruction} (h : i.Arranged) {p : Pending}
    (hp : p.modifiers.has .far = false) : (p.attach i).Arranged := by
  have hfar : i.modifiers.has .far = false → (p.attach i).modifiers.has .far = false := by
    intro hi
    rw [show (p.attach i).modifiers = i.modifiers.union p.modifiers from rfl,
      Modifiers.has_union (k := 5) rfl, hi, hp]
    rfl
  refine ⟨fun part hpart => h.encoded part (Pending.register_mem_of_attach hpart), ?_, ?_, ?_⟩
  · intro d hd
    rw [Pending.operands_attach, Operands.toList_map, List.mem_map] at hd
    obtain ⟨x, hx, hsegment⟩ := hd
    cases x with
    | relative distance =>
      cases hsegment
      obtain ⟨hoperands, hi, hjumps⟩ := h.distance d hx
      refine ⟨?_, hfar hi, hjumps⟩
      rw [Pending.operands_attach, hoperands]
      rfl
    | register part => cases hsegment
    | memory place => cases hsegment
    | immediate value => cases hsegment
  · intro hop
    rw [Pending.operands_attach, h.marker hop]
    rfl
  · intro hop
    obtain ⟨hi, x, hx, hstored⟩ := h.destination hop
    refine ⟨hfar hi, _, congrArg (Option.map (Operand.inSegment p.dataSegment)) hx, ?_⟩
    rwa [Operand.isStored_inSegment]

section Decoded

variable {p : Pending} {image : Image} {cursor : Cursor} {limit : UInt32} {x : Decoded}

theorem arranged_of_decodeWithin (hp : p.OfRun)
    (h : decodeWithin p image cursor limit = .ok x) : x.instruction.Arranged := by
  obtain ⟨f, hf, found, ha, -, rfl, -⟩ := decodeWithin_eq_ok h
  exact (Table.arranged_of_attempt hf ha).attach hp.has_far

/-- Whatever waits, the registers of an instruction are those that encodings have. -/
theorem mem_encoded_of_decodeWithin (h : decodeWithin p image cursor limit = .ok x)
    {part : RegisterPart} (hpart : .register part ∈ x.instruction.operands.toList) :
    part ∈ RegisterPart.encoded := by
  obtain ⟨f, hf, found, ha, -, hfound, -⟩ := decodeWithin_eq_ok h
  rw [hfound] at hpart
  exact (Table.arranged_of_attempt hf ha).encoded part (Pending.register_mem_of_attach hpart)

end Decoded
end I8086
