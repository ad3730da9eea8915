import I8086.Proofs.NoFault
import I8086.Proofs.Stream
import I8086.Proofs.Termination

/-!
# A step and a decoder see the same program

A decoder reads no byte behind its region.  A step decodes without a limit and compares the end of
what it found with the end of the program afterwards, so it has looked at bytes that are not part
of the program.  Both come to the same instruction and, with one exception, to the same error.

* `Decoder.nextInstruction` takes the prefixes up to an instruction, as a step does.
* `InStep` relates a decoder and a machine that have come to the same place of a program, with a
  byte of zero behind the program.  `InStep.fetch` says what the next call of `Decoder.next` and the
  next fetch have in common, and that they stay in step behind a prefix.
* `InStep.stepWithin` follows the prefixes to the end of the step.
* The exception is a program that ends in the first byte of `aam` or `aad`.  Their second byte is
  fixed, so for the step the zero behind the program makes them no instruction at all, while the
  decoder finds them cut off (`step_differs_at_aam`).
-/

set_option autoImplicit false

namespace I8086

/-- The next instruction that is no prefix; the prefixes in front of it are taken on the way. -/
def Decoder.nextInstruction (d : Decoder) : Except StreamEnd Instruction × Decoder :=
  match _ : d.next with
  | (.ok i, d') => if i.isPrefix then d'.nextInstruction else (.ok i, d')
  | (.error e, d') => (.error e, d')
termination_by d.left
decreasing_by exact progress_next ‹_›

theorem Decoder.nextInstruction_of_ok {d d' : Decoder} {i : Instruction}
    (h : d.next = (.ok i, d')) :
    d.nextInstruction = if i.isPrefix then d'.nextInstruction else (.ok i, d') := by
  rw [nextInstruction]
  split
  · rename_i hok
    cases h.symm.trans hok
    rfl
  · rename_i herror
    cases h.symm.trans herror

theorem Decoder.nextInstruction_of_error {d d' : Decoder} {e : StreamEnd}
    (h : d.next = (.error e, d')) : d.nextInstruction = (.error e, d') := by
  rw [nextInstruction]
  split
  · rename_i hok
    cases h.symm.trans hok
  · rename_i herror
    exact herror.symm.trans h

theorem Machine.stepWithin_of_ready {m m' : Machine} {i : Instruction} {ip : UInt16}
    (hready : m.fetch = .ready i ip m') (hfault : ∀ f, (m'.execute i ip).1 ≠ some (.fault f))
    (n : Nat) :
    (m.stepWithin (n + 1)).1 = .executed i ∨
      ∃ u, (m.stepWithin (n + 1)).1 = .failed i (.unsupported u) := by
  rw [stepWithin, hready]
  rcases hexecute : m'.execute i ip with ⟨_ | u | f, m''⟩
  · left
    simp only [hexecute]
  · right
    exact ⟨u, by simp only [hexecute]⟩
  · exact absurd (congrArg Prod.fst hexecute) (hfault f)

/-! ## Being in step -/

/-- A decoder and a machine stand at the same place of a program at the start of the image, behind
which there is a zero.  If it is the end of the program, a prefix still waits. -/
structure InStep (d : Decoder) (m : Machine) : Prop where
  image_eq : m.image = d.image
  pending_eq : m.pending = d.pending
  cursor_eq : m.cursor = d.cursor
  size_eq : m.size = d.count
  segment_eq : d.cursor.segment = 0
  offset_eq : d.cursor.offset.toNat = d.pos.toNat
  pos_le : d.pos.toNat ≤ d.count.toNat
  count_lt : d.count.toNat < 65536
  zero_behind : d.image.get (Address.wrap d.count.toNat) = 0
  waits : d.pos = d.count → d.pending.waits = true
  isNamed : d.pending.dataSegment.isNamed = true

/-- The first bytes of `aam` and `aad`, whose second byte is fixed. -/
def Opcode.adjusts (b : UInt8) : Bool := [0xD4, 0xD5].contains b

theorem Opcode.isUnused_of_adjusts {b : UInt8} (h : adjusts b = true) : isUnused b = false := by
  simp only [adjusts, List.contains_cons, List.contains_nil, Bool.or_false, Bool.or_eq_true,
    beq_iff_eq] at h
  rcases h with rfl | rfl <;> rfl

/-- What a machine reports where a decoder of `size` bytes reports `e`. -/
def DecodeError.unlimited (size : Nat) (e : DecodeError) : DecodeError :=
  if Opcode.adjusts e.byte = true ∧ e.address.toNat + 1 = size then
    { e with cause := .unrecognized }
  else e

namespace InStep

variable {d : Decoder} {m : Machine}

theorem ip_eq (h : InStep d m) : m.ip = d.cursor.offset :=
  congrArg Cursor.offset h.cursor_eq

theorem along_eq (h : InStep d m) {k : Nat} (hk : d.pos.toNat + k < 65536) :
    d.image.along d.cursor k = d.image.get (Address.wrap (d.pos.toNat + k)) := by
  rw [Image.along, Cursor.addressAt, Address.ofSegment, h.segment_eq, UInt16.toNat_add, h.offset_eq,
    UInt16.toNat_ofNat', UInt16.toNat_zero, Nat.zero_mul, Nat.zero_add, Nat.add_mod_mod,
    Nat.mod_eq_of_lt hk]

theorem toNat_address (h : InStep d m) : d.cursor.address.toNat = d.pos.toNat := by
  have hpos := h.pos_le
  have hcount := h.count_lt
  rw [Cursor.address, Cursor.addressAt, Address.toNat_ofSegment, h.segment_eq, h.offset_eq,
    imageSize, UInt16.toNat_zero]
  omega

/-- What was decoded reaches beyond the program for the machine exactly if it does for the
decoder. -/
theorem beyond_iff (h : InStep d m) {size : UInt32} (hsize : size.toNat ≤ 6) :
    m.ip.toUInt32 + size > m.size ↔ d.count.toNat < d.pos.toNat + size.toNat := by
  have hpos := h.pos_le
  have hcount := h.count_lt
  rw [gt_iff_lt, UInt32.lt_iff_toNat_lt, h.size_eq, h.ip_eq, UInt32.toNat_add,
    UInt16.toNat_toUInt32, h.offset_eq, Nat.mod_eq_of_lt (by omega)]

theorem take (h : InStep d m) {x : Decoded}
    (hx : decodeWithin d.pending d.image d.cursor (d.count - d.pos) = .ok x)
    (hp : x.instruction.isPrefix = true)
    (hend : d.pos.toNat + x.instruction.size.toNat ≤ d.count.toNat) :
    InStep (d.take x) ({ m with pending := x.pending }.setIp x.cursor.offset) := by
  have hcount := h.count_lt
  have hcursor := cursor_of_decodeWithin hx
  have hpos : (d.take x).pos.toNat = d.pos.toNat + x.instruction.size.toNat := by
    rw [Decoder.take, UInt32.toNat_add, Nat.mod_eq_of_lt (by omega)]
  refine ⟨h.image_eq, rfl, ?_, h.size_eq, ?_, ?_, ?_, hcount, h.zero_behind, fun _ => ?_, ?_⟩
  · have hcs : m.registers.word .cs = x.cursor.segment :=
      (congrArg Cursor.segment h.cursor_eq).trans (congrArg Cursor.segment hcursor).symm
    rw [Machine.cursor, Machine.ip_setIp, Machine.cs_setIp, hcs]
    rfl
  · exact (congrArg Cursor.segment hcursor).trans h.segment_eq
  · rw [hpos, Decoder.take, hcursor, Cursor.advance, UInt16.toNat_add, h.offset_eq,
      UInt32.toNat_toUInt16, Nat.add_mod_mod, Nat.mod_eq_of_lt (by omega)]
  · rw [hpos]
    exact hend
  · exact (waits_of_decodeWithin hx).trans hp
  · exact isNamed_dataSegment_of_decodeWithin h.isNamed hx

/-! ## One fetch -/

/-- The program ends in the first byte of `aam` or `aad`, and that is where the decoder stands. -/
def AtHalf (d : Decoder) : Prop :=
  Opcode.adjusts (d.image.along d.cursor 0) = true ∧ d.pos.toNat + 1 = d.count.toNat

theorem atHalf_iff (h : InStep d m) (cause : DecodeFailure) :
    let e := DecodeError.ofCursor d.image d.cursor cause
    Opcode.adjusts e.byte = true ∧ e.address.toNat + 1 = d.count.toNat ↔ AtHalf d := by
  rw [AtHalf, ← h.toNat_address]
  rfl

theorem unlimited_of_not_atHalf (h : InStep d m) (hhalf : ¬ AtHalf d) (cause : DecodeFailure) :
    (DecodeError.ofCursor d.image d.cursor cause).unlimited d.count.toNat =
      .ofCursor d.image d.cursor cause :=
  if_neg fun hc => hhalf ((h.atHalf_iff cause).1 hc)

theorem unlimited_of_atHalf (h : InStep d m) (hhalf : AtHalf d) (cause : DecodeFailure) :
    (DecodeError.ofCursor d.image d.cursor cause).unlimited d.count.toNat =
      .ofCursor d.image d.cursor .unrecognized :=
  if_pos ((h.atHalf_iff cause).2 hhalf)

/-- Only `aam` and `aad` are no instructions because of the zero behind them. -/
theorem isEncoding_zero_iff (b : UInt8) :
    Opcode.isEncoding b 0 = true ↔ Opcode.isUnused b = false ∧ Opcode.adjusts b = false := by
  have hall : ∀ b : UInt8, Opcode.isEncoding b 0 = (!Opcode.isUnused b && !Opcode.adjusts b) :=
    forall_byte (by decide +kernel)
  rw [hall, Bool.and_eq_true, Bool.not_eq_true', Bool.not_eq_true']

theorem second_eq_zero (h : InStep d m) (hlast : d.pos.toNat + 1 = d.count.toNat) :
    d.image.along d.cursor 1 = 0 := by
  have hcount := h.count_lt
  rw [h.along_eq (by omega), hlast, h.zero_behind]

theorem not_atHalf_of_isEncoding (h : InStep d m)
    (he : Opcode.isEncoding (d.image.along d.cursor 0) (d.image.along d.cursor 1) = true) :
    ¬ AtHalf d := by
  rintro ⟨hadjusts, hlast⟩
  rw [h.second_eq_zero hlast, isEncoding_zero_iff, hadjusts] at he
  cases he.2

/-- What a decoder fails with where there is no instruction, and what a machine makes of it. -/
theorem unlimited_of_decodeWithin_error (h : InStep d m) (hpos : d.pos.toNat < d.count.toNat)
    (he : ¬ Opcode.isEncoding (d.image.along d.cursor 0) (d.image.along d.cursor 1) = true) :
    ∃ cause, decodeWithin d.pending d.image d.cursor (d.count - d.pos) = .error cause ∧
      (DecodeError.ofCursor d.image d.cursor cause).unlimited d.count.toNat =
        .ofCursor d.image d.cursor .unrecognized ∧
      (AtHalf d → cause = .truncated) := by
  have hleft : (d.count - d.pos).toNat = d.count.toNat - d.pos.toNat :=
    UInt32.toNat_sub_of_le _ _ (UInt32.le_iff_toNat_le.2 h.pos_le)
  by_cases hlast : d.pos.toNat + 1 = d.count.toNat
  · have hone : d.count - d.pos = 1 := UInt32.toNat_inj.1 (by rw [hleft]; simp; omega)
    refine ⟨_, hone ▸ decodeWithin_one_of_not_isEncoding d.pending he, ?_, ?_⟩
    · rw [h.second_eq_zero hlast, isEncoding_zero_iff, not_and, Bool.not_eq_false] at he
      cases hunused : Opcode.isUnused (d.image.along d.cursor 0) with
      | true =>
        refine h.unlimited_of_not_atHalf (fun hhalf => ?_) _
        exact Bool.false_ne_true ((Opcode.isUnused_of_adjusts hhalf.1).symm.trans hunused)
      | false => exact h.unlimited_of_atHalf ⟨he hunused, hlast⟩ _
    · rintro ⟨hadjusts, -⟩
      rw [Opcode.isUnused_of_adjusts hadjusts]
      rfl
  · obtain ⟨cause, hfail, hcause⟩ :=
      decodeWithin_of_not_isEncoding d.pending he (d.count - d.pos)
    have htwo : 2 ≤ d.count - d.pos := UInt32.le_iff_toNat_le.2 (by rw [hleft]; simp; omega)
    obtain rfl := hcause htwo
    exact ⟨_, hfail, h.unlimited_of_not_atHalf (fun hhalf => hlast hhalf.2) _,
      fun hhalf => absurd hhalf.2 hlast⟩

/-- **What a call of the decoder and a fetch of the machine have in common.** Both find the same
instruction, or the machine fails with what it makes of the error of the decoder. -/
theorem fetch (h : InStep d m) :
    (∃ x, decodeWithin d.pending d.image d.cursor (d.count - d.pos) = .ok x ∧
        d.pos.toNat + x.instruction.size.toNat ≤ d.count.toNat ∧
        d.next = (.ok x.instruction, d.take x) ∧
        m.fetch =
          if x.instruction.isPrefix then
            .prefixed ({ m with pending := x.pending }.setIp x.cursor.offset)
          else .ready x.instruction m.ip ({ m with pending := x.pending }.setIp x.cursor.offset)) ∨
      ∃ cause i m', d.next = (.error (.failed (.ofCursor d.image d.cursor cause)), d) ∧
        m.fetch = .failed i ((DecodeError.ofCursor d.image d.cursor cause).unlimited
          d.count.toNat) m' ∧
        (AtHalf d → cause = .truncated) := by
  have hleft : (d.count - d.pos).toNat = d.count.toNat - d.pos.toNat :=
    UInt32.toNat_sub_of_le _ _ (UInt32.le_iff_toNat_le.2 h.pos_le)
  by_cases hend : d.count ≤ d.pos
  · -- at the end of the program the machine reads the zero, which starts an instruction
    have hpos : d.pos.toNat = d.count.toNat :=
      Nat.le_antisymm h.pos_le (UInt32.le_iff_toNat_le.1 hend)
    have hhalf : ¬ AtHalf d := fun hhalf => by have := hhalf.2; omega
    have hzero : d.image.along d.cursor 0 = 0 := by
      have hcount := h.count_lt
      rw [h.along_eq (by omega), Nat.add_zero, hpos, h.zero_behind]
    obtain ⟨x, hx, hsize, -⟩ :=
      @decodeWithin_of_isEncoding d.image d.cursor d.pending (by rw [hzero]; rfl)
    have hle : x.instruction.size.toNat ≤ 6 := hsize ▸ Opcode.length_le _ _
    have hbeyond := (h.beyond_iff hle).2 (by have := (size_of_decodeWithin hx).1; omega)
    refine .inr ⟨.truncated, x.instruction, { m with pending := x.pending }, ?_, ?_, fun _ => rfl⟩
    · rw [Decoder.next, if_pos hend, if_pos (h.waits (UInt32.toNat_inj.1 hpos))]
    · rw [Machine.fetch, h.pending_eq, h.image_eq, h.cursor_eq, hx,
        h.unlimited_of_not_atHalf hhalf]
      exact if_pos hbeyond
  · have hpos : d.pos.toNat < d.count.toNat :=
      UInt32.lt_iff_toNat_lt.1 (UInt32.not_le.1 hend)
    by_cases he : Opcode.isEncoding (d.image.along d.cursor 0) (d.image.along d.cursor 1) = true
    · obtain ⟨x, hx, hsize, hlimit⟩ := decodeWithin_of_isEncoding d.pending he
      have hle : x.instruction.size.toNat ≤ 6 := hsize ▸ Opcode.length_le _ _
      by_cases hfits : x.instruction.size ≤ d.count - d.pos
      · have hwithin := (hlimit (d.count - d.pos)).trans (if_pos hfits)
        have hin : d.pos.toNat + x.instruction.size.toNat ≤ d.count.toNat := by
          have := UInt32.le_iff_toNat_le.1 hfits
          omega
        refine .inl ⟨x, hwithin, hin, ?_, ?_⟩
        · rw [Decoder.next, if_neg hend, hwithin]
          rfl
        · rw [Machine.fetch, h.pending_eq, h.image_eq, h.cursor_eq, hx]
          exact if_neg fun hbeyond => Nat.not_lt.2 hin ((h.beyond_iff hle).1 hbeyond)
      · have hout : d.count.toNat < d.pos.toNat + x.instruction.size.toNat := by
          have := UInt32.lt_iff_toNat_lt.1 (UInt32.not_le.1 hfits)
          omega
        refine .inr
          ⟨.truncated, x.instruction, { m with pending := x.pending }, ?_, ?_, fun _ => rfl⟩
        · rw [Decoder.next, if_neg hend, hlimit, if_neg hfits]
        · rw [Machine.fetch, h.pending_eq, h.image_eq, h.cursor_eq, hx,
            h.unlimited_of_not_atHalf (h.not_atHalf_of_isEncoding he)]
          exact if_pos ((h.beyond_iff hle).2 hout)
    · obtain ⟨cause, hfail, hunlimited, hcause⟩ := h.unlimited_of_decodeWithin_error hpos he
      refine .inr ⟨cause, .empty, m, ?_, ?_, hcause⟩
      · rw [Decoder.next, if_neg hend, hfail]
      · rw [Machine.fetch, h.pending_eq, h.image_eq, h.cursor_eq,
          decodeOne_of_not_isEncoding d.pending he, hunlimited]

/-! ## A whole step -/

/-- What is asked of the result of a step after a decoder of `size` bytes has come to an end. -/
def Answers (size : Nat) (r : StepResult) : Except StreamEnd Instruction → Prop
  | .ok i => r = .executed i ∨ ∃ u, r = .failed i (.unsupported u)
  | .error .finished => False
  | .error (.failed e) =>
    (∃ i, r = .failed i (.decode (e.unlimited size))) ∧
      (Opcode.adjusts e.byte = true ∧ e.address.toNat + 1 = size → e.cause = .truncated)

theorem stepWithin (h : InStep d m) {n : Nat} (hn : d.left < n) :
    Answers d.count.toNat (m.stepWithin n).1 d.nextInstruction.1 := by
  induction n generalizing d m with
  | zero => exact absurd hn (Nat.not_lt_zero _)
  | succ n ih =>
    rcases h.fetch with ⟨x, hx, hend, hnext, hfetch⟩ | ⟨cause, i, m', hnext, hfetch, hcause⟩
    · rw [Decoder.nextInstruction_of_ok hnext]
      cases hp : x.instruction.isPrefix with
      | true =>
        have hprogress := Decoder.progress_next hnext
        rw [hp] at hfetch
        rw [Machine.stepWithin, hfetch]
        exact ih (h.take hx hp hend) (by omega)
      | false =>
        rw [hp] at hfetch
        exact Machine.stepWithin_of_ready hfetch
          (fun f => (shaped_of_decodeWithin h.isNamed hx).execute_ne_fault _ _ f) n
    · rw [Machine.stepWithin, hfetch, Decoder.nextInstruction_of_error hnext]
      exact ⟨⟨i, rfl⟩, fun hc => hcause ((h.atHalf_iff cause).1 hc)⟩

/-- A machine and a decoder that start with a program of less than 64 KiB. -/
theorem new {program : List UInt8} (hne : program ≠ []) (hlen : program.length ≤ 65535) :
    InStep (.new (Image.zero.setRange 0 program) ⟨0, 0⟩ (.ofNat program.length))
      (.new (Image.zero.setRange 0 program) (.ofNat program.length)) := by
  have hcount : (UInt32.ofNat program.length).toNat = program.length :=
    UInt32.toNat_ofNat_of_lt' (Nat.lt_of_le_of_lt hlen (by decide))
  have hpos := List.length_pos_iff.2 hne
  have haddress : (Address.wrap program.length).toNat = program.length := by
    rw [Address.toNat_wrap, imageSize, Nat.mod_eq_of_lt (by omega)]
  have hzero : (Image.zero.setRange 0 program).get (Address.wrap program.length) = 0 := by
    rw [Image.get_setRange, if_pos (Nat.zero_le _), haddress, Nat.sub_zero,
      List.getElem?_eq_none (Nat.le_refl _), Option.getD_none, Image.get_zero]
  have hstart : (0 : UInt32) ≠ .ofNat program.length := by
    intro h
    rw [← UInt32.toNat_inj, hcount, UInt32.toNat_zero] at h
    omega
  refine ⟨rfl, rfl, rfl, rfl, rfl, rfl, Nat.zero_le _, ?_, ?_, fun h => absurd h hstart, rfl⟩
  · rw [Decoder.new, hcount]
    omega
  · rw [Decoder.new, hcount]
    exact hzero

end InStep

namespace Machine

/-- **The machine and the decoder see the same program.** From the start of a program of less than
64 KiB, a decoder goes on to the first instruction that is no prefix, or fails on the way.  A step
executes that very instruction, refuses to, or fails at the same byte and for the same reason; only
at an `aam` or `aad` whose second byte lies behind the program does the decoder find an instruction
that is cut off, and the machine none. -/
theorem step_answers_nextInstruction (program : List UInt8) (hne : program ≠ [])
    (hlen : program.length ≤ 65535) :
    let image := Image.zero.setRange 0 program
    let size := UInt32.ofNat program.length
    match (Decoder.new image ⟨0, 0⟩ size).nextInstruction.1 with
    | .ok i =>
      (new image size).step.1 = .executed i ∨
        ∃ u, (new image size).step.1 = .failed i (.unsupported u)
    | .error .finished => False
    | .error (.failed e) =>
      ∃ i e', (new image size).step.1 = .failed i (.decode e') ∧
        e'.address = e.address ∧ e'.byte = e.byte ∧
        if Opcode.adjusts e.byte = true ∧ e.address.toNat + 1 = program.length then
          e.cause = .truncated ∧ e'.cause = .unrecognized
        else e'.cause = e.cause := by
  intro image size
  have hcount : size.toNat = program.length :=
    UInt32.toNat_ofNat_of_lt' (Nat.lt_of_le_of_lt hlen (by decide))
  have hleft : (Decoder.new image ⟨0, 0⟩ size).left < 65536 := by
    rw [Decoder.left, Decoder.new, hcount]
    omega
  have hanswers : InStep.Answers program.length (new image size).step.1 _ :=
    hcount ▸ (InStep.new hne hlen).stepWithin hleft
  revert hanswers
  rcases (Decoder.new image ⟨0, 0⟩ size).nextInstruction.1 with (_ | e) | i
  · exact id
  · rintro ⟨⟨i, hi⟩, hcause⟩
    refine ⟨i, _, hi, ?_⟩
    rw [DecodeError.unlimited]
    split
    · rename_i hhalf
      exact ⟨rfl, rfl, hcause hhalf, rfl⟩
    · exact ⟨rfl, rfl, rfl⟩
  · exact id

/-- A `lock` in front of a `mov` whose last byte is missing. -/
theorem step_answers_lock_mov :
    let program : List UInt8 := [0xF0, 0xB8, 0x05]
    let image := Image.zero.setRange 0 program
    program ≠ [] ∧ program.length ≤ 65535 ∧
      (Decoder.new image ⟨0, 0⟩ 3).nextInstruction.1 = .error (.failed ⟨1, 0xB8, .truncated⟩) ∧
      ∃ i, (new image 3).step.1 = .failed i (.decode ⟨1, 0xB8, .truncated⟩) := by
  intro program image
  have hnext : (Decoder.new image ⟨0, 0⟩ 3).next.1 = .ok ⟨0, 1, .lock, .none, .empty⟩ ∧
      (Decoder.new image ⟨0, 0⟩ 3).next.2.next.1 = .error (.failed ⟨1, 0xB8, .truncated⟩) := by
    decide +kernel
  have hinstruction : (Decoder.new image ⟨0, 0⟩ 3).nextInstruction.1 =
      .error (.failed ⟨1, 0xB8, .truncated⟩) := by
    rw [Decoder.nextInstruction_of_ok (Prod.ext hnext.1 rfl), if_pos (by decide),
      Decoder.nextInstruction_of_error (Prod.ext hnext.2 rfl)]
  have hstep := step_answers_nextInstruction program (by decide) (by decide)
  rw [show UInt32.ofNat program.length = 3 from rfl] at hstep
  simp only [show Image.zero.setRange 0 program = image from rfl, hinstruction] at hstep
  obtain ⟨i, ⟨address, byte, cause⟩, hfailed, rfl, rfl, hcause⟩ := hstep
  rw [if_neg (by decide)] at hcause
  exact ⟨by decide, by decide, hinstruction, i, hcause ▸ hfailed⟩

/-- The first byte of `aam` alone: cut off for a decoder, but no instruction for the machine. -/
theorem step_differs_at_aam :
    let image := Image.zero.setRange 0 [0xD4]
    (Decoder.new image ⟨0, 0⟩ 1).nextInstruction.1 = .error (.failed ⟨0, 0xD4, .truncated⟩) ∧
      (new image 1).step.1 = .failed .empty (.decode ⟨0, 0xD4, .unrecognized⟩) := by
  intro image
  have hboth : (Decoder.new image ⟨0, 0⟩ 1).next.1 = .error (.failed ⟨0, 0xD4, .truncated⟩) ∧
      (new image 1).step.1 = .failed .empty (.decode ⟨0, 0xD4, .unrecognized⟩) := by
    decide +kernel
  refine ⟨?_, hboth.2⟩
  rw [Decoder.nextInstruction_of_error (Prod.ext hboth.1 rfl)]

end Machine
end I8086
