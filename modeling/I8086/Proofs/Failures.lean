import I8086.Proofs.Passing

/-!
# Steps that fail

A step fails where there is no instruction, where an instruction reaches beyond the program, or at
an instruction that the machine does not execute.  It has passed the prefixes by then, and `ip`
shows it.  Nothing else has happened to registers and memory.

* `Instruction.executes_or_keeps` is the reason: a decoded instruction that is not executed is
  refused before it changes anything.
* `Machine.step_of_error` and `Machine.step_of_beyond` say how a step fails that passes no prefix.
* `Machine.step_of_beyond_again` looks at the step after it.  It fails in the same way, but an
  instruction that reaches beyond the program has taken the prefixes nevertheless, and is met
  without them (`Machine.lock_is_lost`).
-/

set_option autoImplicit false

namespace I8086

open Instruction

/-! ## Refusals -/

theorem Machine.write_eq_none {x : Operand} (hn : x.isNamed = true) (hs : x.isStored = true)
    (m : Machine) (width : UInt8) (value : UInt32) : (m.write (some x) width value).1 = none := by
  cases x with
  | register part =>
    have hregister : part.register.isNamed = true := hn
    rw [write, Registers.set?, if_pos hregister]
  | memory place =>
    obtain ⟨a, ha⟩ := m.addressOf_isOk hn
    rw [write, ha]
    dsimp only
    split <;> rfl
  | immediate value => cases hs
  | relative distance => cases hs

namespace Instruction

variable {i : Instruction} (hs : i.Shaped) (ha : i.Arranged) (m : Machine)

include hs

theorem jump_eq_none (hop : i.operation.isShortJump = true) (ip : UInt16) (taken : Bool) :
    (m.jump i ip taken).1 = none := by
  obtain ⟨distance, hd⟩ := hs.distance hop
  exact Machine.jump_eq_none hd m ip taken

include ha

theorem write_first_eq_none (hop : i.operation.readsTwo = true) (width : UInt8) (value : UInt32) :
    (m.write i.operands.first width value).1 = none := by
  obtain ⟨-, x, hx, hstored⟩ := ha.destination hop
  rw [hx]
  exact m.write_eq_none (hs.isNamed x (Operands.mem_of_first hx)) hstored width value

theorem move_eq_none (hop : i.operation.readsTwo = true) : (m.move i).1 = none := by
  obtain ⟨value, hread⟩ := hs.read_second m hop (Machine.width i i.operands.first)
  rw [Machine.move, hread]
  exact write_first_eq_none hs ha m hop _ value

theorem arithmetic_eq_none (hop : i.operation.readsTwo = true) (subtract store : Bool) :
    (m.arithmetic i subtract store).1 = none := by
  obtain ⟨a, hfirst⟩ := hs.read_first m hop (Machine.width i i.operands.first)
  obtain ⟨b, hsecond⟩ := hs.read_second m hop (Machine.width i i.operands.first)
  rw [Machine.arithmetic, hfirst, hsecond]
  cases store with
  | true => exact write_first_eq_none hs ha _ hop _ _
  | false => rfl

/-- An instruction is executed, or the machine stays as it is. -/
theorem executes_or_keeps (ip : UInt16) :
    (m.execute i ip).1 = none ∨ (m.execute i ip).2 = m := by
  rw [Machine.execute]
  split
  case h_1 hop => exact .inl (move_eq_none hs ha m (by rw [hop]; rfl))
  case h_2 hop => exact .inl (arithmetic_eq_none hs ha m (by rw [hop]; rfl) _ _)
  case h_3 hop => exact .inl (arithmetic_eq_none hs ha m (by rw [hop]; rfl) _ _)
  case h_4 hop => exact .inl (arithmetic_eq_none hs ha m (by rw [hop]; rfl) _ _)
  case h_5 hop =>
    split
    · rename_i hfirst
      exact .inl (Machine.jump_eq_none hfirst m ip true)
    · exact .inr (m.refuse_snd i _)
  case h_6 hop => exact .inl (jump_eq_none hs m (by rw [hop]; rfl) ip _)
  case h_7 hop => exact .inl (jump_eq_none hs _ (by rw [hop]; rfl) ip _)
  case h_8 hop => exact .inl (jump_eq_none hs _ (by rw [hop]; rfl) ip _)
  case h_9 hop => exact .inl (jump_eq_none hs _ (by rw [hop]; rfl) ip _)
  case h_10 => exact .inl rfl
  case h_11 => exact .inl rfl
  case h_12 =>
    split
    · rename_i hcondition
      exact .inl (jump_eq_none hs m (Operation.isShortJump_of_condition? hcondition) ip _)
    · exact .inr (m.refuse_snd i _)

end Instruction

/-! ## What a failing step leaves behind -/

namespace Machine

/-- **A failing step does not half-execute.**  If what waits is left over from decoding, a step that
fails leaves the memory and all registers but `ip` alone.  `ip` has moved by the bytes of the
prefixes that the step has passed and, if the error is that the instruction is not supported, by
those of the instruction. -/
theorem failed_step_moves_only_ip {calls : List (Image × Cursor)} {m m' : Machine}
    {i : Instruction} {e : StepError} (hm : m.pending = Pending.clear.through calls)
    (h : m.step = (.failed i e, m')) :
    (∀ p ∈ m.leading, p.isPrefix = true) ∧ m'.image = m.image ∧
      (∀ x, x ≠ .ip → m'.registers.word x = m.registers.word x) ∧
      m'.ip.toNat =
        match e with
        | .decode _ => (m.ip.toNat + total m.leading) % 65536
        | .unsupported _ => (m.ip.toNat + total m.leading + i.size.toNat) % 65536 := by
  have hip : (m.behind (total m.leading)).ip.toNat = (m.ip.toNat + total m.leading) % 65536 := by
    rw [ip_behind, UInt16.toNat_add, UInt16.toNat_ofNat', Nat.add_mod_mod]
  refine ⟨fun p hp => isPrefix_of_mem_leadingWithin hp, ?_⟩
  cases ends_of_step h nofun with
  | unrecognized hx => exact ⟨rfl, fun x hx => m.word_behind _ hx, hip⟩
  | truncated hx hsize => exact ⟨rfl, fun x hx => m.word_behind _ hx, hip⟩
  | @unsupported x u _ hx hp hexecute =>
    have hwaits : (m.behind (total m.leading)).pending.OfRun := ofRun_passed hm
    have hkeeps := executes_or_keeps (shaped_of_decodeWithin hwaits.isNamed_dataSegment hx)
      (arranged_of_decodeWithin hwaits hx) ((m.behind (total m.leading)).ready x)
      (m.behind (total m.leading)).ip
    rw [hexecute] at hkeeps
    obtain rfl : m' = (m.behind (total m.leading)).ready x := hkeeps.resolve_left nofun
    refine ⟨rfl, fun r hr => ?_, ?_⟩
    · rw [word_ready _ _ hr, m.word_behind _ hr]
    · rw [ip_ready hx, UInt16.toNat_add, hip, UInt32.toNat_toUInt16, Nat.mod_add_mod,
        Nat.add_mod_mod]

/-- A push behind two prefixes: they are passed and the push is refused, three bytes in all. -/
theorem refused_push_moves_only_ip :
    let m := new (Image.zero.setRange 0 [0xF0, 0x2E, 0x50]) 3
    let push : Instruction := ⟨2, 1, .push, ⟨25⟩, ⟨none, some (.register (.whole .a)), none⟩⟩
    ∃ m', m.step = (.failed push (.unsupported (.operation push)), m') ∧ m'.image = m.image ∧
      (∀ x, x ≠ .ip → m'.registers.word x = m.registers.word x) ∧ m'.ip.toNat = 3 := by
  intro m push
  obtain ⟨hresult, hip⟩ : m.step.1 = .failed push (.unsupported (.operation push)) ∧
      m.ip.toNat + total m.leading = 2 := by
    decide +kernel
  have hm : m.pending = Pending.clear.through [] := rfl
  obtain ⟨m', hstep⟩ := exists_step_eq hresult
  obtain ⟨-, himage, hword, hmoved⟩ := failed_step_moves_only_ip hm hstep
  refine ⟨m', hstep, himage, hword, ?_⟩
  rw [hmoved, hip]
  rfl

end Machine

/-! ## A step that cannot decode, repeated -/

/-- The instruction without what prefixes gave it. -/
def Instruction.bare (i : Instruction) : Instruction :=
  { i with
    modifiers := i.modifiers.inter .ofEncoding
    operands := i.operands.map (Operand.inSegment .ds) }

namespace Pending

/-- A prefix that waits already changes nothing. -/
theorem join_join (p : Pending) (b : UInt8) : (p.join b).join b = p.join b := by
  rw [join, join]
  refine congr (congrArg Pending.mk (Modifiers.ext_testBit fun k => ?_)) ?_
  · simp only [Modifiers.testBit_union, Bool.or_assoc, Bool.or_self]
  · cases Prefix.segment? b <;> rfl

theorem waits_eq_false_iff {p : Pending} : p.waits = false ↔ p.modifiers = .none := by
  obtain ⟨⟨bits⟩, segment⟩ := p
  rw [waits, bne_eq_false_iff_eq]
  exact ⟨fun h => congrArg Modifiers.mk h, fun h => congrArg Modifiers.bits h⟩

namespace OfRun

variable {p : Pending} (hp : p.OfRun)

include hp

theorem modifiers_inter_ofEncoding : p.modifiers.inter .ofEncoding = .none := by
  obtain ⟨run, hmodifiers, -⟩ := hp
  rw [hmodifiers]
  exact Prefix.union_inter_ofEncoding run

theorem same_clear_iff : Pending.clear.Same p ↔ p.waits = false := by
  rw [waits_eq_false_iff]
  refine ⟨fun h => h.1.symm, fun h => ⟨h.symm, ?_⟩⟩
  rw [hp.dataSegment_eq_ds (by rw [h]; rfl)]
  exact if_neg nofun

variable {found : Instruction} (hown : found.modifiers.inter .ofEncoding = found.modifiers)

include hown

theorem bare_attach : (p.attach found).bare = Pending.clear.attach found := by
  have hmodifiers : (p.attach found).modifiers.inter .ofEncoding =
      found.modifiers.union .none := by
    rw [Pending.attach, Modifiers.union_inter, hown, hp.modifiers_inter_ofEncoding]
  have hoperands : (p.attach found).operands.map (Operand.inSegment .ds) =
      (Pending.clear.attach found).operands := by
    rw [operands_attach, operands_attach, Operands.map_map, Operand.inSegment_comp]
    rfl
  rw [Instruction.bare, hoperands, hmodifiers]
  rfl

/-- An instruction shows whether prefixes waited for it. -/
theorem attach_eq_iff : Pending.clear.attach found = p.attach found ↔ p.waits = false := by
  refine ⟨fun h => ?_, fun h => ((hp.same_clear_iff.2 h).attach found)⟩
  have hmodifiers : found.modifiers.union .none = found.modifiers.union p.modifiers :=
    congrArg Instruction.modifiers h
  rw [waits_eq_false_iff, ← hp.modifiers_inter_ofEncoding]
  -- what waits is among the modifiers of the encoding, and so it is nothing
  refine Modifiers.ext_testBit fun k => ?_
  have hk := congrArg (fun m : Modifiers => m.bits.toNat.testBit k) hmodifiers
  have hownk := congrArg (fun m : Modifiers => m.bits.toNat.testBit k) hown
  simp only [Modifiers.testBit_union, Modifiers.testBit_inter] at hk hownk ⊢
  rw [← hownk] at hk
  revert hk
  cases p.modifiers.bits.toNat.testBit k <;>
    cases Modifiers.ofEncoding.bits.toNat.testBit k <;> simp [Modifiers.none]

end OfRun
end Pending

namespace Machine

theorem step_of_error {m : Machine} {cause : DecodeFailure}
    (h : decodeOne m.pending m.image m.cursor = .error cause) :
    m.step = (.failed .empty (.decode (.ofCursor m.image m.cursor cause)), m) := by
  rw [step, stepWithin, fetch, h]

theorem step_of_beyond {m : Machine} {x : Decoded}
    (hx : decodeOne m.pending m.image m.cursor = .ok x)
    (hsize : m.ip.toUInt32 + x.instruction.size > m.size) :
    m.step = (.failed x.instruction (.decode (.ofCursor m.image m.cursor .truncated)),
      { m with pending := x.pending }) := by
  rw [step, stepWithin, fetch, hx]
  dsimp only
  rw [if_pos hsize]

/-- An instruction beyond the program, met again: the machine stays as it is, and the instruction
takes what the first one has left waiting. -/
theorem step_of_beyond_again {m : Machine} {x : Decoded}
    (hx : decodeOne m.pending m.image m.cursor = .ok x)
    (hsize : m.ip.toUInt32 + x.instruction.size > m.size) :
    ∃ found, x.instruction = m.pending.attach found ∧
      (found.isPrefix = false → found.modifiers.inter .ofEncoding = found.modifiers) ∧
      { m with pending := x.pending }.step =
        (.failed (x.pending.attach found) (.decode (.ofCursor m.image m.cursor .truncated)),
          { m with pending := x.pending }) := by
  have hpending := pending_of_decodeWithin hx
  obtain ⟨f, hf, found, ha, hop, rfl, hany⟩ := decodeWithin_eq_ok hx
  refine ⟨found, rfl, fun hp => Table.modifiers_of_not_isPrefix hf (hop ▸ hp) ha, ?_⟩
  generalize hq : m.pending.after (m.pending.attach found) = q at hpending ⊢
  have hy := hany q
  rw [step_of_beyond (m := { m with pending := q }) hy hsize]
  have hsame : q.after (q.attach found) = q := by
    have hagain := pending_of_decodeWithin hy
    dsimp only at hpending hagain
    rw [hagain]
    cases hp : found.isPrefix with
    | true =>
      rw [if_pos (show (m.pending.attach found).isPrefix = true from hp)] at hpending
      rw [if_pos (show (q.attach found).isPrefix = true from hp), hpending, Pending.join_join]
    | false =>
      rw [if_neg (show ¬ (m.pending.attach found).isPrefix = true from ne_true_of_eq_false hp)]
        at hpending
      rw [if_neg (show ¬ (q.attach found).isPrefix = true from ne_true_of_eq_false hp), hpending]
  dsimp only
  rw [hsame]
  rfl

/-- **A step that cannot decode fails again**, with the same error, and the machine then stays as
it is.  If there is no instruction, the prefixes that `ip` has passed still wait.  An instruction
that reaches beyond the program has taken them already: it is met again without them, and the two
records agree only if nothing waited.  If it is itself a prefix, it waits although `ip` has not
passed it. -/
theorem step_fails_again {calls : List (Image × Cursor)} {m m' : Machine} {i : Instruction}
    {e : DecodeError} (hm : m.pending = Pending.clear.through calls)
    (h : m.step = (.failed i (.decode e), m')) :
    ∃ i', m'.step = (.failed i' (.decode e), m') ∧
      i'.address = i.address ∧ i'.size = i.size ∧ i'.operation = i.operation ∧
      match e.cause, i.isPrefix with
      | .unrecognized, _ => i' = i ∧ m'.pending = m.passed
      | .truncated, true =>
        m'.pending = m.passed.join e.byte ∧
          i'.modifiers = i.modifiers.union (Prefix.modifiers e.byte)
      | .truncated, false =>
        m'.pending = .clear ∧ i' = i.bare ∧ (i' = i ↔ m.passed.waits = false) ∧
          (m'.pending.Same m.passed ↔ m.passed.waits = false) := by
  have hpassed : m.passed.OfRun := ofRun_passed hm
  cases ends_of_step h nofun with
  | unrecognized hx => exact ⟨.empty, step_of_error hx, rfl, rfl, rfl, rfl, rfl⟩
  | @truncated x hx hsize =>
    have hpending := pending_of_decodeWithin hx
    obtain ⟨found, hfound, hown, hstep⟩ := step_of_beyond_again hx hsize
    refine ⟨x.pending.attach found, hstep, ?_⟩
    rw [pending_behind_leading] at hpending hfound
    rw [hfound] at hpending ⊢
    refine ⟨rfl, rfl, rfl, ?_⟩
    cases hp : found.isPrefix with
    | true =>
      rw [show (m.passed.attach found).isPrefix = true from hp] at hpending ⊢
      rw [if_pos rfl] at hpending
      rw [hpending]
      exact ⟨rfl, (Modifiers.union_assoc ..).symm⟩
    | false =>
      rw [show (m.passed.attach found).isPrefix = false from hp] at hpending ⊢
      rw [if_neg Bool.false_ne_true] at hpending
      rw [hpending, hpassed.bare_attach (hown hp)]
      exact ⟨rfl, rfl, hpassed.attach_eq_iff (hown hp), hpassed.same_clear_iff⟩

/-- `lock` and `es` in front of a `mov` whose last byte is beyond the program: the step passes them,
and the second one meets the `mov` without them. -/
theorem cut_mov_fails_again :
    let m := new (Image.zero.setRange 0 [0xF0, 0x26, 0x8B, 0x47]) 4
    let mov (modifiers : Modifiers) (segment : Register) : Instruction := ⟨2, 3, .mov, modifiers,
      ⟨some (.register (.whole .a)), some (.memory ⟨segment, .bx, 0⟩), none⟩⟩
    ∃ m', m.step = (.failed (mov ⟨25⟩ .es) (.decode ⟨2, 0x8B, .truncated⟩), m') ∧
      m'.step = (.failed (mov ⟨16⟩ .ds) (.decode ⟨2, 0x8B, .truncated⟩), m') ∧
      m'.pending = .clear ∧ ¬ m'.pending.Same m.passed := by
  intro m mov
  obtain ⟨hresult, hwaits⟩ : m.step.1 = .failed (mov ⟨25⟩ .es) (.decode ⟨2, 0x8B, .truncated⟩) ∧
      m.passed.waits = true := by
    decide +kernel
  have hm : m.pending = Pending.clear.through [] := rfl
  obtain ⟨m', hstep⟩ := exists_step_eq hresult
  obtain ⟨i', hagain, -, -, -, hpending, hbare, -, hsame⟩ := step_fails_again hm hstep
  obtain rfl : i' = mov ⟨16⟩ .ds := hbare.trans (by decide)
  refine ⟨m', hstep, hagain, hpending, ?_⟩
  rw [hsame, hwaits]
  exact Bool.noConfusion

/-- A failed step cannot simply be repeated: the first one reports a `lock` that the second one does
not. -/
theorem lock_is_lost :
    let m := new (Image.zero.setRange 0 [0xF0, 0xB8, 0x05]) 3
    let mov (modifiers : Modifiers) : Instruction :=
      ⟨1, 3, .mov, modifiers, ⟨some (.register (.whole .a)), some (.immediate 5), none⟩⟩
    m.step.1 = .failed (mov ⟨17⟩) (.decode ⟨1, 0xB8, .truncated⟩) ∧
      m.step.2.step.1 = .failed (mov ⟨16⟩) (.decode ⟨1, 0xB8, .truncated⟩) := by
  decide +kernel

end Machine
end I8086
