import I8086.Proofs.Frames

/-!
# Words at the end of a segment

The two bytes of a word in memory have addresses that follow each other in the image.  Offsets, on
the other hand, wrap inside their segment, and so do the bytes that instructions are fetched from.
Both ways lead to the same byte except for a word whose low byte is the last one of its segment: its
high byte is the first byte behind the segment instead of the first one in it.

* `Address.succ_eq_iff` compares the two addresses.
* `Machine.execute_number` says which number `mov`, `add`, `sub` and `cmp` leave, and
  `Machine.image_eq_setWord` where the bytes of a word go.
* `Machine.MovesByte` are the instructions that move one byte to memory, and
  `Image.setWord_eq_set_iff` decides when two of them do the same as one that moves a word.
-/

set_option autoImplicit false

namespace I8086

/-! ## Addresses -/

namespace Address

variable (segment offset : UInt16)

theorem ofSegment_add_one : ofSegment segment (offset + 1) 0 = ofSegment segment offset 1 := by
  rw [ofSegment, ofSegment, UInt16.add_zero]

/-- The next address is the address of the next offset, unless the offset wraps. -/
theorem succ_eq_iff :
    ofSegment segment offset 0 + 1 = ofSegment segment offset 1 ↔ offset ≠ 0xFFFF := by
  have hlast : offset ≠ 0xFFFF ↔ offset.toNat ≠ 65535 := by
    rw [Ne, ← UInt16.toNat_inj]
    rfl
  have hlt := offset.toNat_lt
  rw [hlast, ← BitVec.toNat_inj, BitVec.toNat_add, toNat_ofSegment, toNat_ofSegment, imageSize,
    UInt16.toNat_zero, UInt16.toNat_one, show (1 : Address).toNat = 1 from rfl]
  omega

/-- Behind the last byte of a segment there is the first one of the segment 64 KiB further on. -/
theorem succ_of_last : ofSegment segment 0xFFFF 0 + 1 = ofSegment (segment + 0x1000) 0 0 := by
  rw [← BitVec.toNat_inj, BitVec.toNat_add, toNat_ofSegment, toNat_ofSegment, UInt16.toNat_add,
    imageSize, UInt16.toNat_zero, show (0xFFFF : UInt16).toNat = 65535 from rfl,
    show (0x1000 : UInt16).toNat = 4096 from rfl, show (1 : Address).toNat = 1 from rfl]
  omega

theorem ofSegment_ne_next : ofSegment segment offset 0 ≠ ofSegment segment offset 1 := by
  have hlt := offset.toNat_lt
  rw [Ne, ← BitVec.toNat_inj, toNat_ofSegment, toNat_ofSegment, imageSize, UInt16.toNat_zero,
    UInt16.toNat_one]
  omega

end Address

namespace Image

theorem set_of_get_eq {image : Image} {a : Address} {v : UInt8} (h : image.get a = v) :
    image.set a v = image := by
  refine ext fun b => ?_
  rw [get_set]
  split
  · rename_i hab
    rw [← hab, h]
  · rfl

theorem set_eq_set_iff (image : Image) (a b : Address) (v : UInt8) :
    image.set a v = image.set b v ↔ a = b ∨ image.get a = v ∧ image.get b = v := by
  constructor
  · intro h
    by_cases hab : a = b
    · exact .inl hab
    · have ha : (image.set a v).get a = (image.set b v).get a := by rw [h]
      have hb : (image.set a v).get b = (image.set b v).get b := by rw [h]
      rw [get_set_self, get_set_of_ne _ _ (Ne.symm hab)] at ha
      rw [get_set_self, get_set_of_ne _ _ hab] at hb
      exact .inr ⟨ha.symm, hb⟩
  · rintro (rfl | ⟨ha, hb⟩)
    · rfl
    · rw [set_of_get_eq ha, set_of_get_eq hb]

/-- Storing a word is storing its bytes at two offsets that follow each other, unless the offset
wraps between them. -/
theorem setWord_eq_set_iff (image : Image) (segment offset v : UInt16) :
    image.setWord (.ofSegment segment offset 0) v =
        (image.set (.ofSegment segment offset 0) v.toUInt8).set (.ofSegment segment offset 1)
          (v >>> 8).toUInt8 ↔
      offset ≠ 0xFFFF ∨ image.get (.ofSegment segment offset 0 + 1) = (v >>> 8).toUInt8 ∧
        image.get (.ofSegment segment offset 1) = (v >>> 8).toUInt8 := by
  have hnext := Address.ofSegment_ne_next segment offset
  have hsucc : Address.ofSegment segment offset 0 ≠ Address.ofSegment segment offset 0 + 1 := by
    bv_omega
  rw [setWord, set_eq_set_iff, get_set_of_ne _ _ hsucc, get_set_of_ne _ _ hnext,
    Address.succ_eq_iff]

end Image

theorem Operation.readsTwo_of_mem {op : Operation} (h : op ∈ [.mov, .add, .sub, .cmp]) :
    op.readsTwo = true :=
  (show ∀ op ∈ [Operation.mov, .add, .sub, .cmp], op.readsTwo = true by decide) op h

/-- The place one byte further on. -/
def MemoryOperand.next (place : MemoryOperand) : MemoryOperand :=
  { place with displacement := place.displacement + 1 }

namespace Machine

theorem offsetOf_next (m : Machine) (place : MemoryOperand) :
    m.offsetOf place.next = m.offsetOf place + 1 := by
  show (place.displacement + 1).toUInt16 + m.term place.base.terms.1 + m.term place.base.terms.2 =
    place.displacement.toUInt16 + m.term place.base.terms.1 + m.term place.base.terms.2 + 1
  rw [Int16.toUInt16_add, show Int16.toUInt16 1 = 1 from rfl]
  ac_rfl

theorem effectiveAddress_next (m : Machine) (place : MemoryOperand) :
    m.effectiveAddress place.next =
      Address.ofSegment (m.registers.word place.segment) (m.offsetOf place) 1 := by
  rw [effectiveAddress, offsetOf_next, Address.ofSegment_add_one]
  rfl

/-! ## Executing -/

/-- The number that an operation leaves in its destination if it held `a`, and the source holds
`b`. -/
def result (op : Operation) {n : Nat} (a b : BitVec n) : BitVec n :=
  match op with
  | .mov => b
  | .add => a + b
  | .sub => a - b
  | _ => a

section Execute

variable {i : Instruction} {x y : Operand} (hfirst : i.operands.first = some x)
  (hsecond : i.operands.second = some y) (hi : i.Legible) (hsized : i.Sized)

include hfirst hsecond hi hsized

/-- A `mov` writes the number that its source holds. -/
theorem execute_mov (hop : i.operation = .mov) (m : Machine) (ip : UInt16) :
    m.execute i ip = m.write (some x) i.encodedWidth (.ofNat (m.number i.bits y).toNat) := by
  have hreads : i.operation.readsTwo = true := by rw [hop]; rfl
  obtain ⟨_, y', _, hsecond', _, hvalue⟩ := hi.shaped.pair hreads
  obtain rfl : y = y' := Option.some.inj (hsecond.symm.trans hsecond')
  have hread := read_eq_number (hi.operand _ (Operands.mem_of_second hsecond))
    (fun part hpart => hsized part (hpart ▸ Operands.mem_of_second hsecond)) m hvalue
  rw [execute, hop]
  dsimp only
  rw [move, hsized.width_first, hsecond, hread, hfirst]

theorem execute_number (hop : i.operation ∈ [.mov, .add, .sub, .cmp]) (m : Machine)
    (ip : UInt16) :
    ∃ m', m.execute i ip = (none, m') ∧
      m'.number i.bits x = result i.operation (m.number i.bits x) (m.number i.bits y) := by
  have hreads := Operation.readsTwo_of_mem hop
  obtain ⟨_, y', _, hsecond', _, hvalue⟩ := hi.shaped.pair hreads
  obtain rfl : y = y' := Option.some.inj (hsecond.symm.trans hsecond')
  obtain ⟨-, x', hfirst', hstored⟩ := hi.arranged.destination hreads
  obtain rfl : x = x' := Option.some.inj (hfirst.symm.trans hfirst')
  have hx := hi.operand _ (Operands.mem_of_first hfirst)
  rcases List.mem_cons.1 hop with hmov | hop
  · obtain ⟨m', hwrite, hnumber, -⟩ := write_number hx
      (fun part hpart => hsized part (hpart ▸ Operands.mem_of_first hfirst)) m hstored
      (.ofNat (m.number i.bits y).toNat)
    refine ⟨m', (execute_mov hfirst hsecond hi hsized hmov m ip).trans hwrite, ?_⟩
    have hn : Flags.Fits i.encodedWidth i.bits := i.fits_encodedWidth
    rw [hnumber, hn.toNat_ofNat, BitVec.ofNat_toNat, BitVec.setWidth_eq, hmov]
    rfl
  · obtain ⟨m', hexecute, hnumber, -, -⟩ := m.arithmetic_number hfirst hsecond hx
      (hi.operand _ (Operands.mem_of_second hsecond)) hstored hvalue hsized
      (i.operation != .add) (i.operation != .cmp)
    refine ⟨m', (execute_of_mem hop m ip).trans hexecute, hnumber.trans ?_⟩
    simp only [List.mem_cons, List.not_mem_nil, or_false] at hop
    rcases hop with hop | hop | hop <;> rw [hop] <;> rfl

end Execute

theorem toNat_number_word (m : Machine) (place : MemoryOperand) :
    (m.number 16 (.memory place)).toNat = (m.image.get (m.effectiveAddress place)).toNat +
      256 * (m.image.get (m.effectiveAddress place + 1)).toNat := by
  have hlow := (m.image.get (m.effectiveAddress place)).toNat_lt
  have hhigh := (m.image.get (m.effectiveAddress place + 1)).toNat_lt
  rw [number, BitVec.toNat_ofNat]
  omega

theorem number_whole (m : Machine) (r : Register) :
    m.number 16 (.register (.whole r)) = (m.registers.word r).toBitVec := by
  have hlt := (m.registers.word r).toNat_lt
  refine BitVec.eq_of_toNat_eq ?_
  show (m.registers.word r).toNat / 1 % 65536 = (m.registers.word r).toNat
  omega

/-- The bytes of a word that is stored go to its address and the next one. -/
theorem image_eq_setWord {i : Instruction} (hi : i.Legible) (hwide : i.modifiers.has .wide = true)
    (hop : i.operation ∈ [.mov, .add, .sub]) {place : MemoryOperand}
    (hfirst : i.operands.first = some (.memory place)) {m m' : Machine} {ip : UInt16}
    (h : m.execute i ip = (none, m')) :
    m'.image = m.image.setWord (m.effectiveAddress place)
      (.ofBitVec (m'.number 16 (.memory place))) := by
  have hframe := framed_execute hi m ip
  rw [h] at hframe
  have hstored : ∀ m : Machine,
      m.storedAt i = [m.effectiveAddress place, m.effectiveAddress place + 1] := by
    intro m
    rw [storedAt, hfirst]
    dsimp only
    rw [if_pos (show i.storesResult = true from decide_eq_true hop), if_pos hwide]
  have haddress : m'.effectiveAddress place = m.effectiveAddress place := by
    have hlist := hframe.storedAt
    rw [hstored, hstored] at hlist
    exact (List.cons.inj hlist).1
  have hnumber : (UInt16.ofBitVec (m'.number 16 (.memory place))).toNat = _ :=
    m'.toNat_number_word place
  rw [haddress] at hnumber
  have hlt := (m'.image.get (m.effectiveAddress place)).toNat_lt
  refine Image.ext fun a => ?_
  by_cases hlow : a = m.effectiveAddress place
  · subst hlow
    rw [← UInt8.toNat_inj, Image.toNat_get_setWord, hnumber]
    omega
  by_cases hhigh : a = m.effectiveAddress place + 1
  · subst hhigh
    rw [← UInt8.toNat_inj, Image.toNat_get_setWord_succ, hnumber]
    omega
  · rw [Image.setWord, Image.get_set_of_ne _ _ (Ne.symm hhigh),
      Image.get_set_of_ne _ _ (Ne.symm hlow)]
    refine hframe.image a ?_
    rw [hstored]
    simpa using ⟨hlow, hhigh⟩

/-! ## Moving bytes -/

/-- A `mov` of one byte from a register or a constant to a place in memory, which is decoded from
somewhere; `v` is the byte that it moves. -/
structure MovesByte (m : Machine) (j : Instruction) (place : MemoryOperand) (v : UInt8) : Prop where
  decoded : ∃ calls image cursor x,
    decodeOne (Pending.clear.through calls) image cursor = .ok x ∧ x.instruction = j
  operation : j.operation = .mov
  narrow : j.modifiers.has .wide = false
  destination : j.operands.first = some (.memory place)
  source : ∃ y, j.operands.second = some y ∧ (∀ place, y ≠ .memory place) ∧
    m.number 8 y = v.toBitVec

theorem MovesByte.execute_eq {m : Machine} {j : Instruction} {place : MemoryOperand} {v : UInt8}
    (h : m.MovesByte j place v) {m' : Machine} (hregisters : m'.registers = m.registers)
    (ip : UInt16) :
    m'.execute j ip = (none, { m' with image := m'.image.set (m.effectiveAddress place) v }) := by
  obtain ⟨calls, image, cursor, x, hx, rfl⟩ := h.decoded
  obtain ⟨y, hsecond, hplain, hnumber⟩ := h.source
  have hreads : x.instruction.operation.readsTwo = true := by rw [h.operation]; rfl
  have hlegible : x.instruction.Legible := legible_of_decodeWithin (.through calls) hx
  have hsized : x.instruction.Sized := sized_of_decodeOne hx hreads
  have hwidth : x.instruction.encodedWidth = 1 := by
    rw [Instruction.encodedWidth, h.narrow]
    rfl
  have hbits : x.instruction.bits = 8 := by
    rw [Instruction.bits, h.narrow]
    rfl
  have hspelled := hlegible.operand _ (Operands.mem_of_first h.destination)
  have haddress : m'.effectiveAddress place = m.effectiveAddress place :=
    effectiveAddress_congr hspelled fun r _ _ => by rw [hregisters]
  have hsame : m'.number 8 y = m.number 8 y := by
    cases y with
    | register part => rw [number, number, hregisters]
    | memory place => exact absurd rfl (hplain place)
    | immediate value => rfl
    | relative distance => rfl
  have hbyte : (UInt32.ofNat v.toNat).toUInt8 = v := by
    have hlt := v.toNat_lt
    rw [← UInt8.toNat_inj, UInt32.toNat_toUInt8, UInt32.toNat_ofNat_of_lt' (hlt.trans (by decide))]
    exact Nat.mod_eq_of_lt hlt
  have hexecute := execute_mov h.destination hsecond hlegible hsized h.operation m' ip
  rw [hwidth, hbits, hsame, hnumber, write, addressOf_of_spelled hspelled, haddress] at hexecute
  rw [hexecute]
  dsimp only
  rw [if_neg (by decide), UInt8.toNat_toBitVec, hbyte]

/-- **A word in memory does not wrap inside its segment.**  Let a `mov`, `add`, `sub` or `cmp` of
words be decoded, with an operand in memory.  Its low byte is where segment and offset say.  Its high
byte is at the next address of the image.  This is the next offset of the segment unless the offset
is the last one; then it is the first byte behind the segment.  What is read is made of these two
bytes, execution succeeds and computes with it, and what is stored goes to these two bytes.

If a register is moved to memory, two instructions that move its low byte to the same place and its
high byte to the next offset leave the same image, unless the offset is the last one and they find
other bytes where the high byte goes. -/
theorem execute_takes_next_address {calls : List (Image × Cursor)} {image : Image}
    {cursor : Cursor} {x : Decoded}
    (h : decodeOne (Pending.clear.through calls) image cursor = .ok x)
    (hop : x.instruction.operation ∈ [.mov, .add, .sub, .cmp])
    (hwide : x.instruction.modifiers.has .wide = true) {destination source : Operand}
    (hfirst : x.instruction.operands.first = some destination)
    (hsecond : x.instruction.operands.second = some source) {place : MemoryOperand}
    (hplace : destination = .memory place ∨ source = .memory place) (m : Machine) (ip : UInt16) :
    let i := x.instruction
    let segment := m.registers.word place.segment
    let offset := m.offsetOf place
    let low := Address.ofSegment segment offset 0
    let high := Address.ofSegment segment offset 1
    let v := UInt16.ofBitVec (result i.operation (m.number 16 destination) (m.number 16 source))
    (low + 1 = high ↔ offset ≠ 0xFFFF) ∧
    (offset = 0xFFFF → low + 1 = Address.ofSegment (segment + 0x1000) 0 0) ∧
    m.read i (some (.memory place)) 2 =
      .ok (Image.wordOf (m.image.get low) (m.image.get (low + 1))).toUInt32 ∧
    (m.number 16 (.memory place)).toNat =
      (m.image.get low).toNat + 256 * (m.image.get (low + 1)).toNat ∧
    ∃ m', m.execute i ip = (none, m') ∧ m'.number 16 destination = v.toBitVec ∧
      (destination = .memory place → i.operation ≠ .cmp →
        m'.image = (m.image.set low v.toUInt8).set (low + 1) (v >>> 8).toUInt8) ∧
      ∀ r, i.operation = .mov → destination = .memory place → source = .register (.whole r) →
        ∀ j₁ j₂, m.MovesByte j₁ place (m.registers.word r).toUInt8 →
          m.MovesByte j₂ place.next (m.registers.word r >>> 8).toUInt8 →
          ∀ ip₁ ip₂, ∃ m₁ m₂, m.execute j₁ ip₁ = (none, m₁) ∧ m₁.execute j₂ ip₂ = (none, m₂) ∧
            (m'.image = m₂.image ↔ offset ≠ 0xFFFF ∨
              m.image.get (low + 1) = (m.registers.word r >>> 8).toUInt8 ∧
                m.image.get high = (m.registers.word r >>> 8).toUInt8) := by
  intro i segment offset low high v
  have hreads := Operation.readsTwo_of_mem hop
  have hlegible : i.Legible := legible_of_decodeWithin (.through calls) h
  have hsized : i.Sized := sized_of_decodeOne h hreads
  have hspelled : (Operand.memory place).Spelled := by
    rcases hplace with rfl | rfl
    · exact hlegible.operand _ (Operands.mem_of_first hfirst)
    · exact hlegible.operand _ (Operands.mem_of_second hsecond)
  have hbits : i.bits = 16 := if_pos hwide
  obtain ⟨m', hexecute, hnumber⟩ := execute_number hfirst hsecond hlegible hsized hop m ip
  rw [hbits] at hnumber
  refine ⟨Address.succ_eq_iff segment offset, fun hlast => ?_, ?_, m.toNat_number_word place,
    m', hexecute, hnumber, ?_, ?_⟩
  · show Address.ofSegment segment offset 0 + 1 = _
    rw [hlast, Address.succ_of_last]
  · rw [read, addressOf_of_spelled hspelled]
    rfl
  · rintro rfl hcmp
    have hstores : i.operation ∈ [.mov, .add, .sub] := by
      simpa [show x.instruction.operation ≠ .cmp from hcmp] using hop
    have himage := image_eq_setWord hlegible hwide hstores hfirst hexecute
    rwa [hnumber] at himage
  · rintro r hmov rfl rfl j₁ j₂ h₁ h₂ ip₁ ip₂
    have himage := image_eq_setWord hlegible hwide (hmov ▸ .head _) hfirst hexecute
    rw [hnumber, hmov, result, number_whole] at himage
    refine ⟨_, _, h₁.execute_eq rfl ip₁, h₂.execute_eq ?_ ip₂, ?_⟩
    · rfl
    · rw [himage, effectiveAddress_next]
      exact m.image.setWord_eq_set_iff segment offset (m.registers.word r)

/-- The bytes of `cx` are moved to the offset 65535, together and one by one, in a segment that
itself reaches over the end of the image: the bytes with value 12 go to different places. -/
theorem mov_word_leaves_segment :
    let image := Image.zero.setRange 0 [0x89, 0x4F, 0x05, 0x88, 0x4F, 0x05, 0x88, 0x6F, 0x06]
    let m := { new image 9 with
      registers := ((Registers.zero.setWord .b 0xFFFA).setWord .c 0x1234).setWord .ds 0xF800 }
    let i : Instruction := ⟨0, 3, .mov, .wide,
      ⟨some (.memory ⟨.ds, .bx, 5⟩), some (.register (.whole .c)), none⟩⟩
    let j₁ : Instruction := ⟨3, 3, .mov, .none,
      ⟨some (.memory ⟨.ds, .bx, 5⟩), some (.register (.low .c)), none⟩⟩
    let j₂ : Instruction := ⟨6, 3, .mov, .none,
      ⟨some (.memory ⟨.ds, .bx, 6⟩), some (.register (.high .c)), none⟩⟩
    (decodeOne .clear image ⟨0, 0⟩ = .ok ⟨i, ⟨0, 3⟩, .clear⟩ ∧
      decodeOne .clear image ⟨0, 3⟩ = .ok ⟨j₁, ⟨0, 6⟩, .clear⟩ ∧
      decodeOne .clear image ⟨0, 6⟩ = .ok ⟨j₂, ⟨0, 9⟩, .clear⟩) ∧
    ∃ m', m.execute i 0 = (none, m') ∧
      m'.image = (m.image.set 0x07FFF 0x34).set 0x08000 0x12 ∧
      ∃ m₁ m₂, m.execute j₁ 3 = (none, m₁) ∧ m₁.execute j₂ 6 = (none, m₂) ∧
        m'.image ≠ m₂.image := by
  intro image m i j₁ j₂
  have hdecode : decodeOne .clear image ⟨0, 0⟩ = .ok ⟨i, ⟨0, 3⟩, .clear⟩ ∧
      decodeOne .clear image ⟨0, 3⟩ = .ok ⟨j₁, ⟨0, 6⟩, .clear⟩ ∧
      decodeOne .clear image ⟨0, 6⟩ = .ok ⟨j₂, ⟨0, 9⟩, .clear⟩ := by
    decide +kernel
  refine ⟨hdecode, ?_⟩
  obtain ⟨hi, h₁, h₂⟩ := hdecode
  have hthrough : decodeOne (Pending.clear.through []) image ⟨0, 0⟩ = .ok ⟨i, ⟨0, 3⟩, .clear⟩ := hi
  have hj₁ : m.MovesByte j₁ ⟨.ds, .bx, 5⟩ (m.registers.word .c).toUInt8 :=
    ⟨⟨[], image, ⟨0, 3⟩, _, h₁, rfl⟩, rfl, by decide, rfl, _, rfl, fun _ => nofun, by decide⟩
  have hj₂ : m.MovesByte j₂ (.next ⟨.ds, .bx, 5⟩) (m.registers.word .c >>> 8).toUInt8 :=
    ⟨⟨[], image, ⟨0, 6⟩, _, h₂, rfl⟩, rfl, by decide, rfl, _, rfl, fun _ => nofun, by decide⟩
  obtain ⟨-, -, -, -, m', hexecute, -, himage, hbytes⟩ :=
    execute_takes_next_address hthrough (.head _) (show i.modifiers.has .wide = true by decide)
      rfl rfl (.inl rfl) m 0
  have hlow : Address.ofSegment (m.registers.word .ds) (m.offsetOf ⟨.ds, .bx, 5⟩) 0 = 0x07FFF := by
    decide
  have hvalue : result .mov (m.number 16 (.memory ⟨.ds, .bx, 5⟩))
      (m.number 16 (.register (.whole .c))) = 0x1234#16 := number_whole m .c
  have hstored := himage rfl (by decide)
  rw [hlow, hvalue] at hstored
  refine ⟨m', hexecute, hstored, ?_⟩
  obtain ⟨m₁, m₂, h₁, h₂, hsame⟩ := hbytes .c rfl rfl rfl j₁ j₂ hj₁ hj₂ 3 6
  refine ⟨m₁, m₂, h₁, h₂, fun h => ?_⟩
  rcases hsame.1 h with hoffset | ⟨-, hbyte⟩
  · exact hoffset (by decide)
  · have hzero : m.image.get 0xF8000 = 0 := by
      show (Image.zero.setRange 0 _).get 0xF8000 = 0
      simp [Image.get_setRange]
    have hhigh : Address.ofSegment (m.registers.word .ds) (m.offsetOf ⟨.ds, .bx, 5⟩) 1 =
        0xF8000 := by decide
    rw [hhigh, hzero] at hbyte
    exact absurd hbyte (by decide)

/-- `mov [65535], ax` with 1234 in `ax` leaves the first byte of its segment alone and overwrites
the first byte behind it. -/
theorem mov_word_misses_segment :
    let image := Image.zero.setRange 0 [0xA3, 0xFF, 0xFF]
    let m := { new image 3 with
      registers := (Registers.zero.setWord .a 0x1234).setWord .ds 0x1000 }
    let i : Instruction := ⟨0, 3, .mov, .wide,
      ⟨some (.memory ⟨.ds, .direct, -1⟩), some (.register (.whole .a)), none⟩⟩
    decodeOne .clear image ⟨0, 0⟩ = .ok ⟨i, ⟨0, 3⟩, .clear⟩ ∧ m.offsetOf ⟨.ds, .direct, -1⟩ = 0xFFFF ∧
    ∃ m', m.execute i 0 = (none, m') ∧ m'.image.get (.ofSegment 0x1000 0xFFFF 0) = 0x34 ∧
      m'.image.get (.ofSegment 0x1000 0xFFFF 1) = 0 ∧
      m'.image.get (.ofSegment 0x2000 0x0000 0) = 0x12 := by
  intro image m i
  have hdecode : decodeOne (Pending.clear.through []) image ⟨0, 0⟩ = .ok ⟨i, ⟨0, 3⟩, .clear⟩ := by
    decide +kernel
  have hlegible : i.Legible := legible_of_decodeWithin (.through []) hdecode
  obtain ⟨m', hexecute, hnumber⟩ := execute_number rfl rfl hlegible
    (sized_of_decodeOne hdecode rfl) (.head _) m 0
  have himage := image_eq_setWord hlegible (by decide) (.head _) rfl hexecute
  rw [show i.bits = 16 by decide] at hnumber
  have hvalue : m'.number 16 (.memory ⟨.ds, .direct, -1⟩) = 0x1234#16 :=
    hnumber.trans (number_whole m .a)
  have haddress : m.effectiveAddress ⟨.ds, .direct, -1⟩ = 0x1FFFF := by decide
  rw [hvalue, haddress] at himage
  have hzero : m.image.get 0x10000 = 0 := by
    show (Image.zero.setRange 0 _).get 0x10000 = 0
    simp [Image.get_setRange]
  refine ⟨hdecode, by decide, m', hexecute, ?_⟩
  rw [himage, Image.setWord]
  refine ⟨?_, ?_, ?_⟩
  · exact (Image.get_set_of_ne _ _ (by decide)).trans (Image.get_set_self _ _ _)
  · rw [Image.get_set_of_ne _ _ (by decide), Image.get_set_of_ne _ _ (by decide)]
    exact hzero
  · exact Image.get_set_self _ _ _

end Machine
end I8086
