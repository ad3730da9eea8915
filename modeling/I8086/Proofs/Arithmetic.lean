import I8086.Proofs.Lanes
import I8086.Proofs.Legible
import I8086.Proofs.Sums

/-!
# Addition, subtraction and comparison

`add`, `sub` and `cmp` take their operands from whole registers, halves of registers, memory and the
instruction itself, and the first one is the destination, too.  Whatever the operands are, the
instruction is arithmetic on numbers of eight or sixteen bits.

* `Machine.number` is the number that an operand holds, in terms of words of registers and bytes of
  memory.  `Machine.read_eq_number` and `Machine.write_number` say that reading and writing go by
  it.
* `Machine.arithmetic_number` says what becomes of the destination and of the flags.
-/

set_option autoImplicit false

namespace I8086

/-! ## The number that an operand holds -/

/-- How many bits the operands of an instruction have. -/
def Instruction.bits (i : Instruction) : Nat := if i.modifiers.has .wide then 16 else 8

/-- The physical address of a place in memory. -/
def Machine.effectiveAddress (m : Machine) (place : MemoryOperand) : Address :=
  Address.ofSegment (m.registers.word place.segment) (m.offsetOf place) 0

theorem Machine.addressOf_of_spelled {place : MemoryOperand} (h : (Operand.memory place).Spelled)
    (m : Machine) : m.addressOf place = .ok (m.effectiveAddress place) :=
  if_pos (Bool.and_eq_true_iff.2 ⟨h.1, RegisterPart.isNamed_of_mem_encoded h.2⟩)

/-- The number of `n` bits that an operand holds: a register from the byte on that the operand
starts with, memory from its address on with the low byte first, and a constant as far as it
fits. -/
def Machine.number (m : Machine) (n : Nat) : Operand → BitVec n
  | .register part => .ofNat n ((m.registers.word part.register).toNat / 256 ^ part.offset.toNat)
  | .memory place =>
    .ofNat n ((m.image.get (m.effectiveAddress place)).toNat +
      256 * (m.image.get (m.effectiveAddress place + 1)).toNat)
  | .immediate value => .ofNat n value.toNat
  | .relative _ => 0

/-- What was written to a part of a register is the number that the part holds. -/
theorem Machine.number_set {part : RegisterPart} (hpart : part ∈ RegisterPart.encoded) {n : Nat}
    (hn : Flags.Fits part.count n) (m : Machine) (v : UInt16) :
    ({ m with registers := m.registers.set part v }).number n (.register part) =
      .ofNat n v.toNat := by
  have hblank := (RegisterPart.ne_of_mem_encoded hpart).1
  have hnamed := RegisterPart.isNamed_of_mem_encoded hpart
  obtain ⟨x, offset, count⟩ := part
  have hlt := (m.registers.word x).toNat_lt
  refine BitVec.eq_of_toNat_eq ?_
  rcases RegisterPart.cases_of_mem_encoded hpart with h | h | h <;> cases h <;>
    rcases hn with ⟨hcount, rfl⟩ | ⟨hcount, rfl⟩ <;> cases hcount
  · show ((m.registers.set (.whole x) v).word x).toNat / 1 % 65536 = v.toNat % 65536
    rw [m.registers.word_set_whole v hblank hnamed, Nat.div_one]
  · show ((m.registers.set (.low x) v).word x).toNat / 1 % 256 = v.toNat % 256
    rw [m.registers.toNat_word_set_low v hblank hnamed]
    omega
  · show ((m.registers.set (.high x) v).word x).toNat / 256 % 256 = v.toNat % 256
    rw [m.registers.toNat_word_set_high v hblank hnamed]
    omega

/-- What is read from a part of a register is the number that the part holds. -/
theorem Machine.toNat_get_eq_number {part : RegisterPart} (hpart : part ∈ RegisterPart.encoded)
    {n : Nat} (hn : Flags.Fits part.count n) (m : Machine) :
    (m.registers.get part).toNat = (m.number n (.register part)).toNat := by
  obtain ⟨x, offset, count⟩ := part
  have hlt := (m.registers.word x).toNat_lt
  rcases RegisterPart.cases_of_mem_encoded hpart with h | h | h <;> cases h <;>
    rcases hn with ⟨hcount, rfl⟩ | ⟨hcount, rfl⟩ <;> cases hcount
  · show (m.registers.word x).toNat = (m.registers.word x).toNat / 1 % 65536
    omega
  · show (m.registers.get (.low x)).toNat = (m.registers.word x).toNat / 1 % 256
    rw [Registers.toNat_get_low, Nat.div_one]
  · show (m.registers.get (.high x)).toNat = (m.registers.word x).toNat / 256 % 256
    rw [Registers.toNat_get_high]
    omega

theorem ofNat_mod_two_pow {n k : Nat} (h : n ≤ k) (v : Nat) :
    BitVec.ofNat n (v % 2 ^ k) = .ofNat n v := by
  refine BitVec.eq_of_toNat_eq ?_
  rw [BitVec.toNat_ofNat, BitVec.toNat_ofNat, Nat.mod_mod_of_dvd _ (Nat.pow_dvd_pow 2 h)]

/-- A byte that was written to memory is the number there. -/
theorem Machine.number_set_byte (m : Machine) (place : MemoryOperand) (v : UInt8) :
    ({ m with image := m.image.set (m.effectiveAddress place) v }).number 8 (.memory place) =
      .ofNat 8 v.toNat := by
  have hbyte : ((m.image.set (m.effectiveAddress place) v).get (m.effectiveAddress place)).toNat =
      v.toNat := by rw [Image.get_set_self]
  refine BitVec.eq_of_toNat_eq ?_
  rw [number, BitVec.toNat_ofNat, BitVec.toNat_ofNat,
    show (2 : Nat) ^ 8 = 256 from rfl, Nat.add_mul_mod_self_left]
  exact congrArg (· % 256) hbyte

/-- A word that was written to memory is the number there. -/
theorem Machine.number_set_word (m : Machine) (place : MemoryOperand) (v : UInt16) :
    ({ m with image := m.image.setWord (m.effectiveAddress place) v }).number 16 (.memory place) =
      .ofNat 16 v.toNat := by
  have hlow := m.image.toNat_get_setWord (m.effectiveAddress place) v
  have hhigh := m.image.toNat_get_setWord_succ (m.effectiveAddress place) v
  refine congrArg (BitVec.ofNat 16) ?_
  refine (congrArg₂ (fun k l => k + 256 * l) hlow hhigh).trans ?_
  omega

section Operands

variable {i : Instruction} {x : Operand} (hx : x.Spelled)
  (hcount : ∀ part, x = .register part → part.count = i.encodedWidth) (m : Machine)

include hx hcount

/-- An operand is read as the number that it holds. -/
theorem Machine.read_eq_number (hvalue : x.hasValue = true) :
    m.read i (some x) i.encodedWidth = .ok (.ofNat (m.number i.bits x).toNat) := by
  have hn : Flags.Fits i.encodedWidth i.bits := i.fits_encodedWidth
  have hok : ∀ {value : UInt32} {c : BitVec i.bits}, value.toNat = c.toNat →
      (Except.ok value : Except Fault UInt32) = .ok (.ofNat c.toNat) := by
    intro value c h
    rw [← h, UInt32.ofNat_toNat]
  cases x with
  | register part =>
    rw [read, Registers.get?, if_pos (RegisterPart.isNamed_of_mem_encoded hx)]
    refine hok ?_
    rw [UInt16.toNat_toUInt32, toNat_get_eq_number hx (hcount part rfl ▸ hn)]
  | memory place =>
    rw [read, m.addressOf_of_spelled hx]
    refine hok ?_
    have hlt := (m.image.get (m.effectiveAddress place)).toNat_lt
    rw [number, BitVec.toNat_ofNat]
    dsimp only
    generalize i.bits = n at hn
    rcases hn with ⟨hwidth, rfl⟩ | ⟨hwidth, rfl⟩
    · rw [hwidth, if_neg (by decide), UInt8.toNat_toUInt32]
      omega
    · rw [hwidth, if_pos rfl, UInt16.toNat_toUInt32, ← Image.toNat_getWord]
      exact (Nat.mod_eq_of_lt (UInt16.toNat_lt _)).symm
  | immediate value => exact hok (hn.toNat_and_widthMask value)
  | relative distance => cases hvalue

/-- A number that is written is the number that the operand holds then, and the flags stay. -/
theorem Machine.write_number (hstored : x.isStored = true) (value : UInt32) :
    ∃ m', m.write (some x) i.encodedWidth value = (none, m') ∧
      m'.number i.bits x = .ofNat i.bits value.toNat ∧ m'.registers.flags = m.registers.flags := by
  have hn : Flags.Fits i.encodedWidth i.bits := i.fits_encodedWidth
  cases x with
  | register part =>
    refine ⟨{ m with registers := m.registers.set part value.toUInt16 }, ?_, ?_, ?_⟩
    · rw [write, Registers.set?, if_pos (RegisterPart.isNamed_of_mem_encoded hx)]
    · have hle : i.bits ≤ 16 := by
        rcases hn with ⟨-, h⟩ | ⟨-, h⟩ <;> omega
      rw [number_set hx (hcount part rfl ▸ hn), UInt32.toNat_toUInt16, ofNat_mod_two_pow hle]
    · exact m.registers.word_set_of_ne _ (RegisterPart.ne_of_mem_encoded hx).2.1
  | memory place =>
    rw [write, m.addressOf_of_spelled hx]
    dsimp only
    generalize i.bits = n at hn
    rcases hn with ⟨hwidth, rfl⟩ | ⟨hwidth, rfl⟩
    · rw [hwidth, if_neg (by decide)]
      refine ⟨_, rfl, ?_, rfl⟩
      rw [number_set_byte, UInt32.toNat_toUInt8, ofNat_mod_two_pow (Nat.le_refl 8)]
    · rw [hwidth, if_pos rfl]
      refine ⟨_, rfl, ?_, rfl⟩
      rw [number_set_word, UInt32.toNat_toUInt16, ofNat_mod_two_pow (Nat.le_refl 16)]
  | immediate value => cases hstored
  | relative distance => cases hstored

end Operands

theorem Base.terms_ne (b : Base) :
    (b.terms.1 ≠ .flags ∧ b.terms.1 ≠ .ip) ∧ b.terms.2 ≠ .flags ∧ b.terms.2 ≠ .ip := by
  cases b <;> simp [terms]

/-- Neither the flags nor `ip` have a part in an address. -/
theorem Machine.effectiveAddress_congr {place : MemoryOperand} (hx : (Operand.memory place).Spelled)
    {m m' : Machine}
    (hword : ∀ r, r ≠ .flags → r ≠ .ip → m'.registers.word r = m.registers.word r) :
    m'.effectiveAddress place = m.effectiveAddress place := by
  have hterm : ∀ {r}, r ≠ .flags ∧ r ≠ .ip → m'.term r = m.term r := by
    rintro r ⟨hflags, hip⟩
    rw [term, term, hword r hflags hip]
  have hoffset : m'.offsetOf place = m.offsetOf place := by
    obtain ⟨hfirst, hsecond⟩ := place.base.terms_ne
    rw [offsetOf, offsetOf]
    dsimp only
    rw [hterm hfirst, hterm hsecond]
  obtain ⟨-, hflags, hip⟩ := RegisterPart.ne_of_mem_encoded hx.2
  rw [effectiveAddress, effectiveAddress, hoffset]
  exact congrArg (Address.ofSegment · _ 0) (hword _ hflags hip)

/-- Neither the flags nor `ip` are a part of an operand. -/
theorem Machine.number_congr {x : Operand} (hx : x.Spelled) {m m' : Machine}
    (himage : m'.image = m.image)
    (hword : ∀ r, r ≠ .flags → r ≠ .ip → m'.registers.word r = m.registers.word r) (n : Nat) :
    m'.number n x = m.number n x := by
  cases x with
  | register part =>
    obtain ⟨-, hflags, hip⟩ := RegisterPart.ne_of_mem_encoded hx
    rw [number, number, hword _ hflags hip]
  | memory place => rw [number, number, effectiveAddress_congr hx hword, himage]
  | immediate value => rfl
  | relative distance => rfl

namespace Machine

/-- What `add`, `sub` and `cmp` do to a machine, if the operands have one width and can be told
from each other. -/
theorem arithmetic_number {i : Instruction} {x y : Operand} (hfirst : i.operands.first = some x)
    (hsecond : i.operands.second = some y) (hx : x.Spelled) (hy : y.Spelled)
    (hstored : x.isStored = true) (hvalue : y.hasValue = true) (hsized : i.Sized) (m : Machine)
    (subtract store : Bool) :
    ∃ m', m.arithmetic i subtract store = (none, m') ∧
      m'.number i.bits x =
        (if store then Flags.result subtract (m.number i.bits x) (m.number i.bits y)
          else m.number i.bits x) ∧
      Flags.Tells subtract m'.registers.flags (m.number i.bits x) (m.number i.bits y) ∧
      m'.registers.flags &&& ~~~Flags.arithmetic =
        m.registers.flags &&& ~~~Flags.arithmetic := by
  have hn : Flags.Fits i.encodedWidth i.bits := i.fits_encodedWidth
  have hcountx : ∀ part, x = .register part → part.count = i.encodedWidth := by
    rintro part rfl
    exact hsized part (Operands.mem_of_first hfirst)
  have hcounty : ∀ part, y = .register part → part.count = i.encodedWidth := by
    rintro part rfl
    exact hsized part (Operands.mem_of_second hsecond)
  have hvaluex : x.hasValue = true := by
    cases x <;> cases hstored <;> rfl
  have hreadx := m.read_eq_number hx hcountx hvaluex
  have hready := m.read_eq_number hy hcounty hvalue
  have hcut := hn.toNat_wideResult_mod (m.number i.bits x) (m.number i.bits y) subtract
  have htells := Flags.tells_ofOperands hn (m.number i.bits x) (m.number i.bits y) subtract
    m.registers.flags
  have hrest := Flags.ofOperands_and_not m.registers.flags (.ofNat (m.number i.bits x).toNat)
    (.ofNat (m.number i.bits y).toNat)
    (Flags.wideResult (m.number i.bits x) (m.number i.bits y) subtract) i.encodedWidth subtract
  rw [arithmetic, hsized.width_first, hfirst, hsecond, hreadx, hready]
  dsimp only
  rw [← Flags.wideResult]
  generalize Flags.ofOperands m.registers.flags _ _ _ i.encodedWidth subtract = flags
    at htells hrest ⊢
  have hset : (m.registers.setFlags flags).flags = flags :=
    m.registers.word_setWord_self rfl flags
  cases store with
  | true =>
    obtain ⟨m', hwrite, hnumber, hflags⟩ := write_number hx hcountx
      { m with registers := m.registers.setFlags flags } hstored
      (Flags.wideResult (m.number i.bits x) (m.number i.bits y) subtract &&&
        Flags.widthMask i.encodedWidth)
    refine ⟨m', hwrite, ?_, ?_, ?_⟩
    · rw [hnumber, hn.toNat_and_widthMask, hcut, if_pos rfl, BitVec.ofNat_toNat, BitVec.setWidth_eq]
    · rw [hflags, hset]
      exact htells
    · rw [hflags, hset]
      exact hrest
  | false =>
    refine ⟨_, rfl, ?_, ?_, ?_⟩
    · refine number_congr hx ?_ ?_ i.bits
      · rfl
      · intro r hr _
        exact m.registers.word_setWord_of_ne hr.symm flags
    · rw [hset]
      exact htells
    · rw [hset]
      exact hrest

theorem execute_of_mem {i : Instruction} (h : i.operation ∈ [.add, .sub, .cmp]) (m : Machine)
    (ip : UInt16) :
    m.execute i ip = m.arithmetic i (i.operation != .add) (i.operation != .cmp) := by
  simp only [List.mem_cons, List.not_mem_nil, or_false] at h
  rcases h with h | h | h
  all_goals
    rw [execute, h]
    rfl

/-- **`add`, `sub` and `cmp` are arithmetic modulo a power of two.**  Let one of them be decoded,
whatever prefixes stand in front of it, and let `n` be 16 if its operands are words and 8 otherwise;
registers among the operands have `n` bits.  Execution succeeds.  Let `a` and `b` be the numbers
that destination and source hold before.  The destination then holds `a + b` or `a - b` as numbers
of `n` bits, and after a `cmp` still `a`.  The six flags of arithmetic tell what `Flags.Tells` says
about `a` and `b`, and all other flags are as before. -/
theorem execute_computes_result {calls : List (Image × Cursor)} {image : Image} {cursor : Cursor}
    {x : Decoded} (h : decodeOne (Pending.clear.through calls) image cursor = .ok x)
    (hop : x.instruction.operation ∈ [.add, .sub, .cmp]) {n : Nat} (hn : n = x.instruction.bits)
    (m : Machine) (ip : UInt16) :
    let i := x.instruction
    let subtract := i.operation != .add
    (∀ part, .register part ∈ i.operands.toList → 8 * part.count.toNat = n) ∧
      ∃ destination source m', i.operands.first = some destination ∧
        i.operands.second = some source ∧ destination.isStored = true ∧
        m.execute i ip = (none, m') ∧
        let a := m.number n destination
        let b := m.number n source
        m'.number n destination =
            (if i.operation = .cmp then a else if subtract then a - b else a + b) ∧
          Flags.Tells subtract m'.registers.flags a b ∧
          m'.registers.flags &&& ~~~Flags.arithmetic =
            m.registers.flags &&& ~~~Flags.arithmetic := by
  intro i subtract
  obtain rfl : n = i.bits := hn
  have hreads : i.operation.readsTwo = true :=
    (show ∀ op ∈ [Operation.add, .sub, .cmp], op.readsTwo = true by decide) _ hop
  have hsized : i.Sized := sized_of_decodeOne h hreads
  have hlegible : i.Legible := legible_of_decodeWithin (.through calls) h
  obtain ⟨destination, source, hfirst, hsecond, -, hvalue⟩ := hlegible.shaped.pair hreads
  obtain ⟨-, x', hx', hstored⟩ := hlegible.arranged.destination hreads
  obtain rfl : x' = destination := Option.some.inj (hx'.symm.trans hfirst)
  refine ⟨fun part hpart => ?_, ?_⟩
  · rw [hsized part hpart, Instruction.encodedWidth, Instruction.bits]
    cases i.modifiers.has .wide with
    | true => rfl
    | false => rfl
  · have hspelled : ∀ {y}, i.operands.first = some y ∨ i.operands.second = some y → y.Spelled := by
      rintro y (hy | hy)
      · exact hlegible.operand y (Operands.mem_of_first hy)
      · exact hlegible.operand y (Operands.mem_of_second hy)
    obtain ⟨m', hexecute, hnumber, htells, hrest⟩ := m.arithmetic_number hfirst hsecond
      (hspelled (.inl hfirst)) (hspelled (.inr hsecond)) hstored hvalue hsized subtract
      (i.operation != .cmp)
    refine ⟨x', source, m', hfirst, hsecond, hstored, ?_, ?_, htells, hrest⟩
    · rw [execute_of_mem hop, hexecute]
    · rw [hnumber, Flags.result]
      by_cases hcmp : i.operation = .cmp
      · rw [if_pos hcmp, hcmp]
        rfl
      · rw [if_neg hcmp, if_pos (bne_iff_ne.2 hcmp)]

/-- `sub word [bx], byte -1` for the largest signed word: the constant counts as FFFF, the
difference is 8000, and there are a borrow and an overflow. -/
theorem sub_computes_memory_word :
    let image := Image.zero.setRange 0 [0x83, 0x2F, 0xFF, 0xFF, 0x7F]
    let m := { new image 3 with registers := Registers.zero.setWord .b 3 }
    let destination := Operand.memory ⟨.ds, .bx, 0⟩
    let i : Instruction := ⟨0, 3, .sub, .wide,
      ⟨some destination, some (.immediate 0xFFFFFFFF), none⟩⟩
    decodeOne .clear image ⟨0, 0⟩ = .ok ⟨i, ⟨0, 3⟩, .clear⟩ ∧
      ∃ m', m.execute i 0 = (none, m') ∧ m'.number 16 destination = 0x8000#16 ∧
        Flags.Tells true m'.registers.flags 0x7FFF#16 0xFFFF#16 ∧
        Flags.has m'.registers.flags Flags.carry = true ∧
        Flags.has m'.registers.flags Flags.overflow = true := by
  intro image m destination i
  have hdecode : decodeOne .clear image ⟨0, 0⟩ = .ok ⟨i, ⟨0, 3⟩, .clear⟩ ∧
      m.number 16 destination = 0x7FFF#16 := by
    decide +kernel
  obtain ⟨hi, ha⟩ := hdecode
  clear_value m
  have hthrough : decodeOne (Pending.clear.through []) image ⟨0, 0⟩ = .ok ⟨i, ⟨0, 3⟩, .clear⟩ := hi
  obtain ⟨-, x, y, m', hx, hy, -, hexecute, hnumber, htells, -⟩ :=
    execute_computes_result hthrough (List.mem_cons_of_mem _ List.mem_cons_self)
      (show 16 = i.bits by decide) m 0
  cases hx
  cases hy
  have hb : m.number 16 (.immediate 0xFFFFFFFF) = 0xFFFF#16 := rfl
  have htells' : Flags.Tells true m'.registers.flags (m.number 16 destination)
      (m.number 16 (.immediate 0xFFFFFFFF)) := htells
  have hnumber' : m'.number 16 destination =
      m.number 16 destination - m.number 16 (.immediate 0xFFFFFFFF) := hnumber
  rw [ha, hb] at htells' hnumber'
  exact ⟨hi, m', hexecute, hnumber', htells', htells'.carry, htells'.overflow⟩

end Machine
end I8086
