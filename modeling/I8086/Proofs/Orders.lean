import I8086.Proofs.Sums

/-!
# Comparing and jumping

`cmp` subtracts its operands and keeps nothing but the flags, and a conditional jump looks at the
flags only.  The two together decide the orders of the integers: equality, the order of unsigned
numbers, the order of two's complement numbers, and what is left to ask about a difference.

* `Operation.asks?` says what a jump asks about two numbers, without mention of a flag.
* `Flags.Compares` says what the flags tell about the numbers that were compared;
  `Flags.compares_ofOperands` is the arithmetic behind it, and `Flags.Compares.condition?_eq` says
  that the condition of a jump is then what the jump asks.
* `jump_of_decodeOne` says where a conditional jump leads to.
* `Machine.cmp_decides_jump` puts them together.
-/

set_option autoImplicit false

namespace I8086

/-! ## What a jump asks -/

/-- What a conditional jump asks about two numbers that were compared; `none` for the other
operations.  Numbers have `n` bits: `toNat` reads them as unsigned and `toInt` as two's complement
numbers. -/
def Operation.asks? {n : Nat} (op : Operation) (a b : BitVec n) : Option Bool :=
  match op with
  | .je => some (decide (a = b))
  | .jne => some (decide (a ≠ b))
  | .jb => some (decide (a.toNat < b.toNat))
  | .jnb => some (decide (b.toNat ≤ a.toNat))
  | .jbe => some (decide (a.toNat ≤ b.toNat))
  | .ja => some (decide (b.toNat < a.toNat))
  | .jl => some (decide (a.toInt < b.toInt))
  | .jnl => some (decide (b.toInt ≤ a.toInt))
  | .jle => some (decide (a.toInt ≤ b.toInt))
  | .jg => some (decide (b.toInt < a.toInt))
  | .js => some ((a - b).getLsbD (n - 1))
  | .jns => some (!(a - b).getLsbD (n - 1))
  | .jo => some (decide (a.toInt - b.toInt < -2 ^ (n - 1) ∨ 2 ^ (n - 1) ≤ a.toInt - b.toInt))
  | .jno => some (decide (-2 ^ (n - 1) ≤ a.toInt - b.toInt ∧ a.toInt - b.toInt < 2 ^ (n - 1)))
  | .jp => some (decide (((List.range 8).countP fun k => (a - b).getLsbD k) % 2 = 0))
  | .jnp => some (decide (((List.range 8).countP fun k => (a - b).getLsbD k) % 2 = 1))
  | _ => none

/-! ## The flags of a comparison -/

namespace Flags

/-- What the flags tell about two numbers that were compared. -/
structure Compares {n : Nat} (flags : UInt16) (a b : BitVec n) : Prop where
  zero : has flags zero = decide (a = b)
  sign : has flags sign = (a - b).msb
  carry : has flags carry = decide (a.toNat < b.toNat)
  parity : has flags parity =
    decide (((List.range 8).countP fun k => (a - b).getLsbD k) % 2 = 0)
  overflow : has flags overflow = a.ssubOverflow b

section Subtraction

variable {width : UInt8} {n : Nat} (h : Fits width n) (a b : BitVec n)

include h

/-- The flags after a subtraction, whatever they were before. -/
theorem compares_ofOperands (flags : UInt16) :
    Compares (ofOperands flags (.ofNat a.toNat) (.ofNat b.toNat)
      (.ofNat a.toNat - .ofNat b.toNat) width true) a b := by
  have htells := tells_ofOperands h a b true flags
  have hzero : a - b = 0#n ↔ a = b := by
    rw [← BitVec.toNat_inj, ← BitVec.toNat_inj, BitVec.toNat_sub, BitVec.toNat_ofNat, Nat.zero_mod]
    have ha := a.isLt
    have hb := b.isLt
    rcases h with ⟨-, rfl⟩ | ⟨-, rfl⟩
    · omega
    · omega
  exact ⟨htells.zero.trans (decide_eq_decide.2 hzero), htells.sign, htells.carry, htells.parity,
    htells.overflow.trans (ssubOverflow_eq_inRange a b).symm⟩

/-- The sign of a difference is wrong exactly if it overflowed. -/
theorem Fits.msb_bne_ssubOverflow :
    ((a - b).msb != a.ssubOverflow b) = decide (a.toInt < b.toInt) := by
  have hrange : ∀ x : BitVec n, -2 ^ (n - 1) ≤ x.toInt ∧ x.toInt < 2 ^ (n - 1) :=
    fun x => ⟨x.le_toInt, x.toInt_lt⟩
  have ha := hrange a
  have hb := hrange b
  have hrest := hrange (a - b)
  have hdifference := @BitVec.toInt_sub n a b
  rw [Int.bmod_eq_emod] at hdifference
  rw [BitVec.msb_eq_toInt, BitVec.ssubOverflow, Bool.eq_iff_iff, bne_iff_ne, ne_eq,
    Bool.eq_iff_iff, Bool.or_eq_true]
  simp only [decide_eq_true_eq]
  rcases h with ⟨-, rfl⟩ | ⟨-, rfl⟩
  · split at hdifference <;> omega
  · split at hdifference <;> omega

/-- The condition of a jump is what the jump asks. -/
theorem Compares.condition?_eq {flags : UInt16} {a b : BitVec n} (hflags : Compares flags a b)
    (op : Operation) : op.condition? flags = op.asks? a b := by
  have hless : (has flags Flags.sign != has flags Flags.overflow) =
      decide (a.toInt < b.toInt) := by
    rw [hflags.sign, hflags.overflow, h.msb_bne_ssubOverflow]
  have hgreater : (has flags Flags.sign == has flags Flags.overflow) =
      decide (b.toInt ≤ a.toInt) := by
    rw [← Bool.not_not (_ == _), ← bne, hless, ← decide_not, decide_eq_decide, Int.not_lt]
  have hnat : a = b ↔ a.toNat = b.toNat := BitVec.toNat_inj.symm
  have hint : a = b ↔ a.toInt = b.toInt := BitVec.toInt_inj.symm
  cases op
  case je => exact congrArg some hflags.zero
  case jne => simp only [Operation.condition?, Operation.asks?, hflags.zero, decide_not]
  case jb => exact congrArg some hflags.carry
  case jnb =>
    simp only [Operation.condition?, Operation.asks?, hflags.carry, ← decide_not, Nat.not_lt]
  case jbe =>
    simp only [Operation.condition?, Operation.asks?, hflags.carry, hflags.zero, ← Bool.decide_or,
      hnat, Nat.le_iff_lt_or_eq]
  case ja =>
    simp only [Operation.condition?, Operation.asks?, hflags.carry, hflags.zero, ← decide_not,
      ← Bool.decide_and, hnat, Option.some.injEq, decide_eq_decide]
    omega
  case jl => exact congrArg some hless
  case jnl => exact congrArg some hgreater
  case jle =>
    simp only [Operation.condition?, Operation.asks?, hless, hflags.zero, ← Bool.decide_or, hint,
      Option.some.injEq, decide_eq_decide]
    omega
  case jg =>
    simp only [Operation.condition?, Operation.asks?, hgreater, hflags.zero, ← decide_not,
      ← Bool.decide_and, hint, Option.some.injEq, decide_eq_decide]
    omega
  case js => exact congrArg some (hflags.sign.trans (BitVec.msb_eq_getLsbD_last _))
  case jns =>
    exact congrArg (fun p => some !p) (hflags.sign.trans (BitVec.msb_eq_getLsbD_last _))
  case jo =>
    simp only [Operation.condition?, Operation.asks?, hflags.overflow, BitVec.ssubOverflow,
      ← Bool.decide_or, Option.some.injEq, decide_eq_decide]
    omega
  case jno =>
    simp only [Operation.condition?, Operation.asks?, hflags.overflow, BitVec.ssubOverflow,
      ← Bool.decide_or, ← decide_not, Option.some.injEq, decide_eq_decide]
    omega
  case jp => exact congrArg some hflags.parity
  case jnp =>
    simp only [Operation.condition?, Operation.asks?, hflags.parity, ← decide_not,
      Option.some.injEq, decide_eq_decide]
    omega
  all_goals rfl

end Subtraction

end Flags

/-! ## Where a conditional jump leads to -/

namespace Table

variable (op : Operation) (opcode : UInt32) (bytes : Nat → UInt8)

theorem headSize_jump : (jump op opcode).headSize = 1 := by
  rw [Format.headSize, jump, widthOf_cons, widthOf_cons, widthOf_cons, widthOf_nil,
    show (lit 8 opcode).bits = 8 from rfl]
  rfl

theorem fieldsAt_jump : (jump op opcode).fieldsAt bytes = [(.hasDisp, 1), (.relative, 1)] := rfl

theorem sizeAt_jump : (jump op opcode).sizeAt bytes = 2 := by
  rw [Format.sizeAt, headSize_jump, fieldsAt_jump]
  rfl

theorem operandsAt_jump : (jump op opcode).operandsAt bytes =
    .ok ⟨some (.relative ((BitReader.extend true (bytes 1)).toUInt16.toInt16.toInt32 + 2)),
      none, none⟩ := by
  rw [Format.operandsAt, sizeAt_jump, headSize_jump, fieldsAt_jump]
  rfl

end Table

/-- A short jump has two bytes.  The second one is its distance from the byte behind it. -/
theorem jump_of_decodeOne {p : Pending} {image : Image} {cursor : Cursor} {x : Decoded}
    (h : decodeOne p image cursor = .ok x) (hop : x.instruction.operation.isShortJump = true) :
    x.cursor.offset = cursor.offset + 2 ∧ ∃ distance : Int32,
      x.instruction.operands.first = some (.relative distance) ∧
      distance.toUInt32.toUInt16 = 2 + (image.along cursor 1).toInt8.toInt16.toUInt16 := by
  obtain ⟨f, hf, found, ha, hfound, rfl, -⟩ := decodeWithin_eq_ok h
  obtain ⟨ops, hops, hiff⟩ := (Table.wellFormed f hf).attempt_eq_ok_iff image cursor
  obtain ⟨-, rfl⟩ := (hiff _ found).1 ha
  have hjump := (Table.plain f hf).jump (hfound ▸ hop)
  rw [hjump, Table.operandsAt_jump] at hops
  cases hops
  refine ⟨?_, _, rfl, ?_⟩
  · rw [hjump, Table.sizeAt_jump]
    rfl
  · rw [Int32.toUInt32_add, UInt32.toUInt16_add, UInt16.add_comm, ← toUInt16_extend]
    exact congrArg (2 + ·) (toUInt16_toInt32 _)

/-! ## Execution -/

namespace Machine

theorem execute_of_condition? {m : Machine} {i : Instruction} {taken : Bool}
    (h : i.operation.condition? m.registers.flags = some taken) (ip : UInt16) :
    m.execute i ip = m.jump i ip taken := by
  rw [execute]
  split
  case h_12 => rw [h]
  all_goals
    rename_i hop
    rw [hop] at h
    cases h

/-- A conditional jump, decoded anywhere, goes to its target or stays where it is. -/
theorem execute_conditional_jump {p : Pending} {image : Image} {cursor : Cursor} {x : Decoded}
    (h : decodeOne p image cursor = .ok x) {m : Machine} {taken : Bool}
    (htaken : x.instruction.operation.condition? m.registers.flags = some taken) :
    m.execute x.instruction cursor.offset =
      (none, if taken then
          m.setIp (cursor.offset + 2 + (image.along cursor 1).toInt8.toInt16.toUInt16)
        else m) := by
  obtain ⟨-, distance, hfirst, hdistance⟩ :=
    jump_of_decodeOne h (Operation.isShortJump_of_condition? htaken)
  rw [execute_of_condition? htaken, jump, hfirst]
  cases taken with
  | false => rfl
  | true =>
    rw [if_pos rfl, if_pos rfl, UInt16.add_assoc, ← hdistance]

/-- `cmp` reads two numbers of its width and leaves nothing behind but what the flags tell about
them. -/
theorem execute_cmp {calls : List (Image × Cursor)} {image : Image} {cursor : Cursor} {x : Decoded}
    (h : decodeOne (Pending.clear.through calls) image cursor = .ok x)
    (hop : x.instruction.operation = .cmp) {n : Nat}
    (hn : Flags.Fits x.instruction.encodedWidth n) (m : Machine) (ip : UInt16) :
    let i := x.instruction
    ∃ (a b : BitVec n) (flags : UInt16),
      m.read i i.operands.first (width i i.operands.first) = .ok (.ofNat a.toNat) ∧
      m.read i i.operands.second (width i i.operands.first) = .ok (.ofNat b.toNat) ∧
      m.execute i ip = (none, { m with registers := m.registers.setFlags flags }) ∧
      Flags.Compares flags a b := by
  intro i
  have hreads : i.operation.readsTwo = true := by
    rw [hop]
    rfl
  have hsized : i.Sized := sized_of_decodeOne h hreads
  have hshaped : i.Shaped :=
    shaped_of_decodeWithin (Pending.isNamed_dataSegment_through rfl calls) h
  obtain ⟨first, second, hfirst, hsecond, -, -⟩ := hshaped.pair hreads
  obtain ⟨v, hv⟩ := hshaped.read_first m hreads i.encodedWidth
  obtain ⟨w, hw⟩ := hshaped.read_second m hreads i.encodedWidth
  have hvlt : v.toNat < 2 ^ n :=
    hsized.read_lt (Operands.mem_of_first hfirst) hn (hfirst ▸ hv)
  have hwlt : w.toNat < 2 ^ n :=
    hsized.read_lt (Operands.mem_of_second hsecond) hn (hsecond ▸ hw)
  have hnumber : ∀ {u : UInt32}, u.toNat < 2 ^ n →
      UInt32.ofNat (BitVec.ofNat n u.toNat).toNat = u := by
    intro u hu
    rw [BitVec.toNat_ofNat, Nat.mod_eq_of_lt hu, UInt32.ofNat_toNat]
  have hcompares := Flags.compares_ofOperands hn (.ofNat n v.toNat) (.ofNat n w.toNat)
    m.registers.flags
  rw [hnumber hvlt, hnumber hwlt] at hcompares
  refine ⟨.ofNat n v.toNat, .ofNat n w.toNat, _, ?_, ?_, ?_, hcompares⟩
  · rw [hsized.width_first, hv, hnumber hvlt]
  · rw [hsized.width_first, hw, hnumber hwlt]
  · rw [execute, hop]
    dsimp only
    rw [arithmetic, hsized.width_first, hv, hw]
    rfl

/-- **`cmp` and a conditional jump decide the orders.**  Let a comparison be decoded, whatever
prefixes stand in front of it, and let `n` be 16 if its operands are words and 8 otherwise.  It
reads two numbers of `n` bits and changes the flags only.  A conditional jump that is executed then
goes to its target exactly if what it asks about the two numbers is true, and otherwise `ip` stays
behind it. -/
theorem cmp_decides_jump {calls : List (Image × Cursor)} {image : Image} {cursor : Cursor}
    {x : Decoded} (h : decodeOne (Pending.clear.through calls) image cursor = .ok x)
    (hop : x.instruction.operation = .cmp) {n : Nat}
    (hn : n = if x.instruction.modifiers.has .wide then 16 else 8) (m : Machine) (ip : UInt16) :
    let i := x.instruction
    ∃ (a b : BitVec n) (flags : UInt16),
      m.read i i.operands.first (width i i.operands.first) = .ok (.ofNat a.toNat) ∧
      m.read i i.operands.second (width i i.operands.first) = .ok (.ofNat b.toNat) ∧
      m.execute i ip = (none, { m with registers := m.registers.setFlags flags }) ∧
      ∀ (p : Pending) (image' : Image) (cursor' : Cursor) (y : Decoded) (asked : Bool),
        decodeOne p image' cursor' = .ok y → y.instruction.operation.asks? a b = some asked →
        let target := cursor'.offset + 2 + (image'.along cursor' 1).toInt8.toInt16.toUInt16
        let behind := { m with registers := m.registers.setFlags flags, pending := y.pending }.setIp
          y.cursor.offset
        behind.execute y.instruction cursor'.offset =
            (none, if asked then behind.setIp target else behind) ∧
          behind.ip = cursor'.offset + 2 := by
  intro i
  have hfits : Flags.Fits i.encodedWidth n := hn ▸ i.fits_encodedWidth
  obtain ⟨a, b, flags, ha, hb, hexecute, hcompares⟩ := execute_cmp h hop hfits m ip
  refine ⟨a, b, flags, ha, hb, hexecute, ?_⟩
  intro p image' cursor' y asked hy hasks target behind
  have hflags : behind.registers.flags = flags := by
    rw [Registers.flags, show behind.registers =
      (m.registers.setFlags flags).setWord .ip y.cursor.offset from rfl,
      Registers.word_setWord_of_ne _ (by decide), Registers.setFlags,
      Registers.word_setWord_self _ rfl]
  have hcondition : y.instruction.operation.condition? behind.registers.flags = some asked := by
    rw [hflags, hcompares.condition?_eq hfits, hasks]
  refine ⟨execute_conditional_jump hy hcondition, ?_⟩
  rw [Machine.ip, show behind.registers =
    (m.registers.setFlags flags).setWord .ip y.cursor.offset from rfl,
    Registers.word_setWord_self _ rfl]
  exact (jump_of_decodeOne hy (Operation.isShortJump_of_condition? hcondition)).1

/-- One is less than 8000 as an unsigned word, and greater as a signed one: `cmp ax, 8000` and a
`jg` backwards over the start of the segment. -/
theorem cmp_decides_jg :
    let image := Image.zero.setRange 0 [0x3D, 0x00, 0x80, 0x7F, 0xF0]
    let m := { new image 5 with registers := Registers.zero.setWord .a 1 }
    let i : Instruction := ⟨0, 3, .cmp, .wide,
      ⟨some (.register (.whole .a)), some (.immediate 0x8000), none⟩⟩
    let j : Instruction := ⟨3, 2, .jg, .none, ⟨some (.relative (-14)), none, none⟩⟩
    decodeOne .clear image ⟨0, 0⟩ = .ok ⟨i, ⟨0, 3⟩, .clear⟩ ∧
      decodeOne .clear image ⟨0, 3⟩ = .ok ⟨j, ⟨0, 5⟩, .clear⟩ ∧
      ∃ flags, m.execute i 0 = (none, { m with registers := m.registers.setFlags flags }) ∧
        let behind := { m with registers := m.registers.setFlags flags }.setIp 5
        behind.execute j 3 = (none, behind.setIp 0xFFF5) := by
  intro image m i j
  have hdecode : decodeOne .clear image ⟨0, 0⟩ = .ok ⟨i, ⟨0, 3⟩, .clear⟩ ∧
      decodeOne .clear image ⟨0, 3⟩ = .ok ⟨j, ⟨0, 5⟩, .clear⟩ ∧ image.along ⟨0, 3⟩ 1 = 0xF0 := by
    decide +kernel
  obtain ⟨hi, hj, hbyte⟩ := hdecode
  have hthrough : decodeOne (Pending.clear.through []) image ⟨0, 0⟩ = .ok ⟨i, ⟨0, 3⟩, .clear⟩ := hi
  obtain ⟨a, b, flags, ha, hb, hexecute, hjump⟩ :=
    cmp_decides_jump hthrough rfl (show 16 = _ by decide) m 0
  have hread : m.read i i.operands.first (width i i.operands.first) = .ok 1 := rfl
  have hread' : m.read i i.operands.second (width i i.operands.first) = .ok 0x8000 :=
    congrArg Except.ok (show 0x8000 &&& Flags.widthMask 2 = 0x8000 by decide)
  have hnat : ∀ {u : UInt32} {c : BitVec 16}, (Except.ok u : Except Fault UInt32) =
      .ok (.ofNat c.toNat) → c = .ofNat 16 u.toNat := by
    intro u c h
    cases h
    rw [UInt32.toNat_ofNat_of_lt' (Nat.lt_of_lt_of_le c.isLt (by decide)), BitVec.ofNat_toNat,
      BitVec.setWidth_eq]
  have ha' : a = 1#16 := hnat (hread.symm.trans ha)
  have hb' : b = 0x8000#16 := hnat (hread'.symm.trans hb)
  have hasked : j.operation.asks? a b = some true := by
    rw [ha', hb']
    decide
  have htarget := (hjump .clear image ⟨0, 3⟩ _ true hj hasked).1
  rw [hbyte] at htarget
  exact ⟨hi, hj, flags, hexecute, htarget⟩

end Machine
end I8086
