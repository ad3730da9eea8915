import I8086.Machine.Run
import I8086.Proofs.Shapes

/-!
# No step faults

A step makes many checks that it counts on never to fail.  Some of them guard the table of formats:
a field of more than eight bits, a usage that has no meaning, a fourth operand.  Others guard what
is done with an instruction: an override has to name a register, a jump has to have a distance, an
operand that is read has to have a value, and codes have to name registers and addresses, also
while the message of an error is written.

* `Address.number` is the number of an address before it is checked, and
  `Address.number_eq_toWord` and `Address.numberAfter_toWord` say what the mask makes of it.
* `Machine.Trips` lists the checks of a step, fetch by fetch.
* `Instruction.Shaped.execute_ne_fault` is the part about execution: an instruction with the
  operands that decoding produces is executed or refused.
* `Machine.not_trips` is the invariant: as long as what waits names a segment, no check fails.
-/

set_option autoImplicit false

namespace I8086

/-! ## Checks of the decoder -/

/-- A well-formed format is not broken for any stream. -/
theorem Format.WellFormed.attempt_ne_fault {format : Format} (hw : format.WellFormed)
    (image : Image) (cursor : Cursor) (limit : UInt32) (f : Fault) :
    format.attempt image cursor limit ≠ .error (.fault f) := by
  obtain ⟨ops, -, h⟩ := hw.attempt_eq image cursor
  rw [h]
  split
  · split
    · exact nofun
    · exact nofun
  · exact nofun

namespace Pending

theorem update_eq_ok {p : Pending} {i : Instruction}
    (h : i.operation = .segment → ∃ part, i.operands.first = some (.register part)) :
    p.update i = .ok (p.after i) := by
  rw [update.eq_def]
  split
  · rfl
  · rename_i hop hfirst
    obtain ⟨part, hpart⟩ := h hop
    exact absurd hpart (hfirst part)
  · rfl

end Pending

theorem Prefix.first_of_isMeaning {b : UInt8} {i : Instruction} (h : isMeaning b i = true)
    (hop : i.operation = .segment) : ∃ part, i.operands.first = some (.register part) := by
  obtain ⟨address, size, operation, modifiers, ⟨first, second, third⟩⟩ := i
  obtain rfl : operation = .segment := hop
  cases first with
  | none => cases h
  | some x =>
    cases x with
    | register part => exact ⟨part, rfl⟩
    | memory place => cases h
    | immediate value => cases h
    | relative distance => cases h

/-- An override that is decoded names a register. -/
theorem update_of_decodeWithin {p : Pending} {image : Image} {cursor : Cursor} {limit : UInt32}
    {x : Decoded} (h : decodeWithin p image cursor limit = .ok x) :
    p.update x.instruction = .ok x.pending := by
  obtain ⟨f, hf, found, ha, hop, rfl, -⟩ := decodeWithin_eq_ok h
  apply Pending.update_eq_ok
  intro hsegment
  have hfound : found.operation = .segment := hsegment
  have hp : f.operation.isPrefix = true := by
    rw [← hop, hfound]
    rfl
  obtain ⟨part, hpart⟩ :=
    Prefix.first_of_isMeaning (Table.attempt_of_isPrefix hf hp ha).2.2 hfound
  refine ⟨part, ?_⟩
  rw [Pending.operands_attach, Operands.map, hpart]
  rfl

/-! ## Numbers of addresses -/

namespace Address

/-- The number of `segment : offset + extra`, as words of 32 bits give it before it is checked. -/
def number (segment offset extra : UInt16) : UInt32 :=
  (segment.toUInt32 <<< 4 + (offset + extra).toUInt32) &&& 0xfffff

/-- The number of the high byte of a word. -/
def numberAfter (n : UInt32) : UInt32 := (n + 1) &&& 0xfffff

theorem toNat_mask (n : UInt32) : (n &&& 0xfffff).toNat = n.toNat % imageSize := by
  rw [UInt32.toNat_and]
  exact Nat.and_two_pow_sub_one_eq_mod n.toNat 20

theorem number_eq_toWord (segment offset extra : UInt16) :
    number segment offset extra = (ofSegment segment offset extra).toWord := by
  have hsegment := segment.toNat_lt
  have hoffset := (offset + extra).toNat_lt
  have hshift : (segment.toUInt32 <<< 4).toNat = segment.toNat * 16 := by
    have hlt : segment.toNat * 2 ^ 4 < 2 ^ 32 := by omega
    rw [UInt32.toNat_shiftLeft, UInt16.toNat_toUInt32, Nat.shiftLeft_eq]
    exact Nat.mod_eq_of_lt hlt
  have hsum : segment.toNat * 16 + (offset + extra).toNat < 2 ^ 32 := by omega
  rw [← UInt32.toNat_inj, number, toNat_mask, UInt32.toNat_add, hshift, UInt16.toNat_toUInt32,
    Nat.mod_eq_of_lt hsum, toNat_toWord, ofSegment, toNat_wrap]

theorem numberAfter_toWord (a : Address) : numberAfter a.toWord = (a + 1).toWord := by
  have hlt := a.toNat_lt
  have hsum : a.toNat + (1 : UInt32).toNat < 2 ^ 32 := by
    rw [imageSize] at hlt
    rw [UInt32.toNat_one]
    omega
  rw [← UInt32.toNat_inj, numberAfter, toNat_mask, UInt32.toNat_add, toNat_toWord, toNat_toWord,
    BitVec.toNat_add, Nat.mod_eq_of_lt hsum]
  rfl

end Address

/-- Every address passes the check of the image. -/
theorem Image.checkAddress_toWord (a : Address) : checkAddress a.toWord = .ok a := by
  rw [checkAddress, Address.toNat_toWord, if_pos a.toNat_lt, Address.ofWord_toWord]

/-! ## Execution -/

namespace Machine

theorem addressOf_isOk {place : MemoryOperand} (h : (Operand.memory place).isNamed = true)
    (m : Machine) : ∃ a, m.addressOf place = .ok a :=
  ⟨_, if_pos h⟩

theorem read_isOk {x : Operand} (hn : x.isNamed = true) (hv : x.hasValue = true) (m : Machine)
    (i : Instruction) (width : UInt8) : ∃ value, m.read i (some x) width = .ok value := by
  cases x with
  | register part =>
    have hregister : part.register.isNamed = true := hn
    rw [read, Registers.get?, if_pos hregister]
    exact ⟨_, rfl⟩
  | memory place =>
    obtain ⟨a, ha⟩ := m.addressOf_isOk hn
    rw [read, ha]
    exact ⟨_, rfl⟩
  | immediate value => exact ⟨_, rfl⟩
  | relative distance => cases hv

theorem write_ne_fault {x : Operand} (hn : x.isNamed = true) (m : Machine) (width : UInt8)
    (value : UInt32) (f : Fault) : (m.write (some x) width value).1 ≠ some (.fault f) := by
  cases x with
  | register part =>
    have hregister : part.register.isNamed = true := hn
    rw [write, Registers.set?, if_pos hregister]
    exact nofun
  | memory place =>
    obtain ⟨a, ha⟩ := m.addressOf_isOk hn
    rw [write, ha]
    simp only
    split
    · exact nofun
    · exact nofun
  | immediate value => exact nofun
  | relative distance => exact nofun

theorem jump_eq_none {i : Instruction} {distance : Int32}
    (h : i.operands.first = some (.relative distance)) (m : Machine) (ip : UInt16) (taken : Bool) :
    (m.jump i ip taken).1 = none := by
  rw [jump, h]
  cases taken with
  | true => rfl
  | false => rfl

end Machine

namespace Instruction.Shaped

variable {i : Instruction}

/-- The text of the instruction can be written, and so can the message that refuses it. -/
theorem isRenderable (h : i.Shaped) : i.isRenderable = true := by
  rw [Instruction.isRenderable, Bool.or_eq_true, List.all_eq_true]
  right
  intro x hx
  have hn := h.isNamed x hx
  cases x with
  | memory place => exact (Bool.and_eq_true_iff.1 hn).1
  | register part => rfl
  | immediate value => rfl
  | relative distance => rfl

section

variable (h : i.Shaped) (m : Machine)

include h

theorem read_first (hop : i.operation.readsTwo = true) (width : UInt8) :
    ∃ value, m.read i i.operands.first width = .ok value := by
  obtain ⟨a, b, ha, -, hvalue, -⟩ := h.pair hop
  rw [ha]
  exact m.read_isOk (h.isNamed a (Operands.mem_of_first ha)) hvalue i width

theorem read_second (hop : i.operation.readsTwo = true) (width : UInt8) :
    ∃ value, m.read i i.operands.second width = .ok value := by
  obtain ⟨a, b, -, hb, -, hvalue⟩ := h.pair hop
  rw [hb]
  exact m.read_isOk (h.isNamed b (Operands.mem_of_second hb)) hvalue i width

theorem write_first_ne_fault (hop : i.operation.readsTwo = true) (width : UInt8) (value : UInt32)
    (f : Fault) : (m.write i.operands.first width value).1 ≠ some (.fault f) := by
  obtain ⟨a, b, ha, -, -, -⟩ := h.pair hop
  rw [ha]
  exact m.write_ne_fault (h.isNamed a (Operands.mem_of_first ha)) width value f

theorem move_ne_fault (hop : i.operation.readsTwo = true) (f : Fault) :
    (m.move i).1 ≠ some (.fault f) := by
  obtain ⟨value, hread⟩ := h.read_second m hop (Machine.width i i.operands.first)
  rw [Machine.move, hread]
  exact h.write_first_ne_fault m hop _ value f

theorem arithmetic_ne_fault (hop : i.operation.readsTwo = true) (subtract store : Bool)
    (f : Fault) : (m.arithmetic i subtract store).1 ≠ some (.fault f) := by
  obtain ⟨a, ha⟩ := h.read_first m hop (Machine.width i i.operands.first)
  obtain ⟨b, hb⟩ := h.read_second m hop (Machine.width i i.operands.first)
  rw [Machine.arithmetic, ha, hb]
  cases store with
  | true => exact h.write_first_ne_fault _ hop _ _ f
  | false => exact nofun

theorem jump_ne_fault (hop : i.operation.isShortJump = true) (ip : UInt16) (taken : Bool)
    (f : Fault) : (m.jump i ip taken).1 ≠ some (.fault f) := by
  obtain ⟨distance, hd⟩ := h.distance hop
  rw [Machine.jump_eq_none hd]
  exact nofun

theorem refuse_ne_fault (u : Unsupported) (f : Fault) : (m.refuse i u).1 ≠ some (.fault f) := by
  rw [Machine.refuse, if_pos h.isRenderable]
  exact nofun

/-- The machine executes an instruction or refuses it. -/
theorem execute_ne_fault (ip : UInt16) (f : Fault) : (m.execute i ip).1 ≠ some (.fault f) := by
  rw [Machine.execute]
  split
  case h_1 hop => exact h.move_ne_fault m (by rw [hop]; rfl) f
  case h_2 hop => exact h.arithmetic_ne_fault m (by rw [hop]; rfl) _ _ f
  case h_3 hop => exact h.arithmetic_ne_fault m (by rw [hop]; rfl) _ _ f
  case h_4 hop => exact h.arithmetic_ne_fault m (by rw [hop]; rfl) _ _ f
  case h_5 hop =>
    split
    · rename_i hfirst
      rw [Machine.jump_eq_none hfirst]
      exact nofun
    · exact h.refuse_ne_fault m _ f
  case h_6 hop => exact h.jump_ne_fault m (by rw [hop]; rfl) ip _ f
  case h_7 hop => exact h.jump_ne_fault _ (by rw [hop]; rfl) ip _ f
  case h_8 hop => exact h.jump_ne_fault _ (by rw [hop]; rfl) ip _ f
  case h_9 hop => exact h.jump_ne_fault _ (by rw [hop]; rfl) ip _ f
  case h_10 => exact nofun
  case h_11 => exact nofun
  case h_12 =>
    split
    · rename_i hcondition
      exact h.jump_ne_fault m (Operation.isShortJump_of_condition? hcondition) ip _ f
    · exact h.refuse_ne_fault m _ f

end

end Instruction.Shaped

/-! ## Steps -/

namespace Machine

/-- A check fails on the way of a step from `m`. -/
inductive Trips : Machine → Fault → Prop
  /-- A format of the table is broken for the bytes at hand. -/
  | format {m : Machine} {f : Fault} {format : Format} (hmem : format ∈ Table.formats)
    (h : format.attempt m.image m.cursor 1048576 = .error (.fault f)) : Trips m f
  /-- The instruction at hand is an override without a register. -/
  | override {m : Machine} {f : Fault} {x : Decoded}
    (hx : decodeOne m.pending m.image m.cursor = .ok x)
    (h : m.pending.update x.instruction = .error f) : Trips m f
  /-- A byte at or behind `cs:ip` lies outside of the image. -/
  | fetched {m : Machine} {f : Fault} {extra : UInt16}
    (h : Image.checkAddress (Address.number m.cursor.segment m.cursor.offset extra) = .error f) :
    Trips m f
  /-- The first byte of an operand in memory lies outside of the image. -/
  | low {m m' : Machine} {f : Fault} {i : Instruction} {ip : UInt16} {place : MemoryOperand}
    (hready : m.fetch = .ready i ip m') (hplace : .memory place ∈ i.operands.toList)
    (h : Image.checkAddress (Address.number (m'.registers.word place.segment)
      (m'.offsetOf place) 0) = .error f) : Trips m f
  /-- The second byte of an operand in memory lies outside of the image. -/
  | high {m m' : Machine} {f : Fault} {i : Instruction} {ip : UInt16} {place : MemoryOperand}
    (hready : m.fetch = .ready i ip m') (hplace : .memory place ∈ i.operands.toList)
    (h : Image.checkAddress (Address.numberAfter (Address.number (m'.registers.word place.segment)
      (m'.offsetOf place) 0)) = .error f) : Trips m f
  /-- Execution fails. -/
  | execution {m m' m'' : Machine} {f : Fault} {i : Instruction} {ip : UInt16}
    (hready : m.fetch = .ready i ip m') (h : m'.execute i ip = (some (.fault f), m'')) : Trips m f
  /-- The step goes on behind a prefix. -/
  | later {m m' : Machine} {f : Fault} (hfetch : m.fetch = .prefixed m') (h : Trips m' f) :
    Trips m f

theorem decodeOne_of_fetch_prefixed {m m' : Machine} (h : m.fetch = .prefixed m') :
    ∃ x, decodeOne m.pending m.image m.cursor = .ok x ∧ x.pending = m'.pending := by
  rcases m.fetch_cases with ⟨i, e, pending, hfetch⟩ | ⟨x, hx, hfetch⟩
  · rw [hfetch] at h
    cases h
  · rw [hfetch] at h
    split at h
    · cases h
      exact ⟨x, hx, rfl⟩
    · cases h

theorem decodeOne_of_fetch_ready {m m' : Machine} {i : Instruction} {ip : UInt16}
    (h : m.fetch = .ready i ip m') :
    ∃ x, decodeOne m.pending m.image m.cursor = .ok x ∧ x.instruction = i := by
  rcases m.fetch_cases with ⟨i', e, pending, hfetch⟩ | ⟨x, hx, hfetch⟩
  · rw [hfetch] at h
    cases h
  · rw [hfetch] at h
    split at h
    · cases h
    · cases h
      exact ⟨x, hx, rfl⟩

/-- A step that ends with a fault has tripped over a check. -/
theorem trips_of_stepWithin {n : Nat} {m m' : Machine} {f : Fault}
    (h : m.stepWithin n = (.fault f, m')) : m.Trips f := by
  induction n generalizing m with
  | zero => cases h
  | succ n ih =>
    rw [stepWithin] at h
    cases hfetch : m.fetch with
    | prefixed m₁ =>
      rw [hfetch] at h
      exact .later hfetch (ih h)
    | failed i e m₁ =>
      rw [hfetch] at h
      cases h
    | ready i ip m₁ =>
      rw [hfetch] at h
      simp only at h
      split at h
      · cases h
      · cases h
      · rename_i f' m₂ hexecute
        cases h
        exact .execution hfetch hexecute

/-- No check fails as long as what waits names a segment, which a prefix does not change. -/
theorem not_trips {m : Machine} (hm : m.pending.dataSegment.isNamed = true) (f : Fault) :
    ¬ m.Trips f := by
  intro h
  induction h with
  | format hmem h => exact (Table.wellFormed _ hmem).attempt_ne_fault _ _ _ _ h
  | override hx h =>
    rw [update_of_decodeWithin hx] at h
    cases h
  | fetched h | low _ _ h =>
    rw [Address.number_eq_toWord, Image.checkAddress_toWord] at h
    cases h
  | high _ _ h =>
    rw [Address.number_eq_toWord, Address.numberAfter_toWord, Image.checkAddress_toWord] at h
    cases h
  | execution hready h =>
    obtain ⟨x, hx, rfl⟩ := decodeOne_of_fetch_ready hready
    exact (shaped_of_decodeWithin hm hx).execute_ne_fault _ _ _ (congrArg Prod.fst h)
  | later hfetch _ ih =>
    obtain ⟨x, hx, hpending⟩ := decodeOne_of_fetch_prefixed hfetch
    exact ih (hpending ▸ isNamed_dataSegment_of_decodeWithin hm hx)

/-- **No step faults.**  If what waits is left over from decoding, no check of a step fails, and a
step that ends has executed an instruction or gives an error. -/
theorem step_trips_no_check {m : Machine} {calls : List (Image × Cursor)}
    (hm : m.pending = Pending.clear.through calls) :
    (∀ f, ¬ m.Trips f) ∧
      ∀ n, (m.stepWithin n).1 = .endless ∨ (∃ i, (m.stepWithin n).1 = .executed i) ∨
        ∃ i e, (m.stepWithin n).1 = .failed i e := by
  have hnamed : m.pending.dataSegment.isNamed = true := by
    rw [hm]
    exact Pending.isNamed_dataSegment_through rfl calls
  have htrips : ∀ f, ¬ m.Trips f := m.not_trips hnamed
  refine ⟨htrips, ?_⟩
  intro n
  cases hstep : m.stepWithin n with
  | mk result m' =>
    cases result with
    | executed i => exact .inr (.inl ⟨i, rfl⟩)
    | failed i e => exact .inr (.inr ⟨i, e, rfl⟩)
    | fault f => exact absurd (trips_of_stepWithin hstep) (htrips f)
    | endless => exact .inl rfl

/-- A jump to a far address in memory, which is refused with a message, behind an override. -/
theorem far_jump_trips_no_check :
    let image := Image.zero.setRange 0 [0x26, 0xFF, 0x2F]
    let m := { new image 3 with pending := Pending.clear.through [(image, ⟨0, 0⟩)] }
    (∀ f, ¬ m.Trips f) ∧
      (m.step.1 = .endless ∨ (∃ i, m.step.1 = .executed i) ∨ ∃ i e, m.step.1 = .failed i e) := by
  intro image m
  have hm : m.pending = Pending.clear.through [(image, ⟨0, 0⟩)] := rfl
  exact ⟨(step_trips_no_check hm).1, (step_trips_no_check hm).2 65536⟩

end Machine
end I8086
