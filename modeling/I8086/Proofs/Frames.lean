import I8086.Proofs.Distances
import I8086.Proofs.Passing

/-!
# What a step leaves alone

An instruction says what it may change: bytes of registers (`Instruction.writesByte`), flags
(`Instruction.flagsSet`) and bytes of memory (`Machine.storedAt`, which needs the registers for the
address).  `Machine.Framed` relates two machines that differ in nothing else.

* `Machine.framed_execute` says this of executing, one change after the other.
* `Machine.ip_execute_of_not_takes` adds that only jumps that are taken move `ip` elsewhere.
* `Machine.executed_step_frame` says it of a step with all its prefixes.
-/

set_option autoImplicit false

namespace I8086

open Instruction

/-! ## What may change -/

namespace Instruction

/-- Whether the result of an instruction goes to its first operand. -/
def storesResult (i : Instruction) : Bool := i.operation ∈ [.mov, .add, .sub]

/-- Whether an instruction may change byte `k` of a register, `ip` and the flags aside. -/
def writesByte (i : Instruction) (x : Register) (k : Nat) : Bool :=
  (i.storesResult && i.operands.first.any fun
    | .register part => part.covers x k
    | _ => false) ||
  (i.operation ∈ [.loop, .loopz, .loopnz] && x == .c)

/-- The flags that an instruction may change. -/
def flagsSet (i : Instruction) : UInt16 :=
  if i.operation ∈ [.add, .sub, .cmp] then Flags.arithmetic else 0

end Instruction

/-- The addresses of the bytes that an instruction may change. -/
def Machine.storedAt (m : Machine) (i : Instruction) : List Address :=
  match i.operands.first with
  | some (.memory place) =>
    if i.storesResult then
      if i.modifiers.has .wide then [m.effectiveAddress place, m.effectiveAddress place + 1]
      else [m.effectiveAddress place]
    else []
  | _ => []

/-! ## One change after the other -/

namespace Machine

/-- Two machines that differ only in what `i` may change, and in `ip`. -/
structure Framed (i : Instruction) (m m' : Machine) : Prop where
  byte : ∀ x, x ≠ .ip → x ≠ .flags → ∀ k < 2, i.writesByte x k = false →
    m'.registers.byte x k = m.registers.byte x k
  flags : m'.registers.flags &&& ~~~i.flagsSet = m.registers.flags &&& ~~~i.flagsSet
  image : ∀ a ∉ m.storedAt i, m'.image.get a = m.image.get a
  storedAt : m'.storedAt i = m.storedAt i
  ip : i.operation ∈ [.mov, .add, .sub, .cmp] → m'.ip = m.ip

namespace Framed

variable {i : Instruction} {m m' : Machine}

theorem refl (m : Machine) : Framed i m m where
  byte _ _ _ _ _ _ := rfl
  flags := rfl
  image _ _ := rfl
  storedAt := rfl
  ip _ := rfl

theorem trans {m'' : Machine} (h : Framed i m m') (h' : Framed i m' m'') : Framed i m m'' where
  byte x hip hflags k hk hx := (h'.byte x hip hflags k hk hx).trans (h.byte x hip hflags k hk hx)
  flags := h'.flags.trans h.flags
  image a ha := (h'.image a (h.storedAt ▸ ha)).trans (h.image a ha)
  storedAt := h'.storedAt.trans h.storedAt
  ip hop := (h'.ip hop).trans (h.ip hop)

end Framed

section Effects

variable {i : Instruction} {m m' : Machine}

theorem storedAt_congr (hi : i.Legible)
    (hword : ∀ r, r ≠ .flags → r ≠ .ip → m'.registers.word r = m.registers.word r) :
    m'.storedAt i = m.storedAt i := by
  rw [storedAt.eq_def, storedAt.eq_def]
  split
  · rename_i place hfirst
    rw [effectiveAddress_congr (hi.operand _ (Operands.mem_of_first hfirst)) hword]
  · rfl

theorem storedAt_of_not_storesResult (h : i.storesResult = false) : m.storedAt i = [] := by
  rw [storedAt.eq_def]
  split
  · rw [h, if_neg Bool.false_ne_true]
  · rfl

theorem mem_storedAt (hop : i.operation ∈ [.mov, .add, .sub]) {place : MemoryOperand}
    (hfirst : i.operands.first = some (.memory place)) :
    m.effectiveAddress place ∈ m.storedAt i ∧
      (i.modifiers.has .wide = true → m.effectiveAddress place + 1 ∈ m.storedAt i) := by
  rw [storedAt, hfirst]
  dsimp only
  rw [if_pos (show i.storesResult = true from decide_eq_true hop)]
  split
  · exact ⟨by simp, fun _ => by simp⟩
  · rename_i hwide
    exact ⟨by simp, fun h => absurd h hwide⟩

/-- A whole register may be written if it is `ip`, the flags or one that `i` may change, and if no
address depends on it. -/
theorem framed_setWord {x : Register} {v : UInt16}
    (hbyte : x = .ip ∨ x = .flags ∨ ∀ k, i.writesByte x k = true)
    (hflags : x = .flags → v &&& ~~~i.flagsSet = m.registers.flags &&& ~~~i.flagsSet)
    (hip : x = .ip → i.operation ∉ [.mov, .add, .sub, .cmp])
    (hstored : { m with registers := m.registers.setWord x v }.storedAt i = m.storedAt i) :
    Framed i m { m with registers := m.registers.setWord x v } := by
  refine ⟨fun y hyip hyflags k _ hy => ?_, ?_, fun _ _ => rfl, hstored, fun hop => ?_⟩
  · have hne : x ≠ y := by
      rintro rfl
      rcases hbyte with rfl | rfl | hbyte
      · exact hyip rfl
      · exact hyflags rfl
      · exact ne_true_of_eq_false hy (hbyte k)
    rw [Registers.byte, Registers.byte, m.registers.word_setWord_of_ne hne]
  · by_cases hx : x = .flags
    · subst hx
      rw [← hflags rfl]
      exact congrArg (· &&& ~~~i.flagsSet) (m.registers.word_setWord_self (x := .flags) rfl v)
    · exact congrArg (· &&& ~~~i.flagsSet) (m.registers.word_setWord_of_ne hx v)
  · exact m.registers.word_setWord_of_ne (fun hx => hip hx hop) v

theorem framed_of_effect (hi : i.Legible) (h : Effect i m m') : Framed i m m' := by
  cases h with
  | @register hop part hfirst v =>
    have hpart : part ∈ RegisterPart.encoded := hi.operand _ (Operands.mem_of_first hfirst)
    obtain ⟨-, hflags, hip⟩ := RegisterPart.ne_of_mem_encoded hpart
    refine ⟨fun x _ _ k hk hx => ?_, ?_, fun _ _ => rfl, ?_, fun _ => ?_⟩
    · rw [Instruction.writesByte, Instruction.storesResult, hfirst, decide_eq_true hop] at hx
      exact (Registers.byte_set hpart m.registers v x hk).trans
        (if_neg (ne_true_of_eq_false (Bool.or_eq_false_iff.1 hx).1))
    · exact congrArg (· &&& ~~~i.flagsSet) (m.registers.word_set_of_ne v hflags)
    · rw [storedAt, storedAt, hfirst]
    · exact m.registers.word_set_of_ne v hip
  | @byte hop place hfirst a ha v =>
    refine ⟨fun _ _ _ _ _ _ => rfl, rfl, fun b hb => ?_, rfl, fun _ => rfl⟩
    rw [m.addressOf_of_spelled (hi.operand _ (Operands.mem_of_first hfirst))] at ha
    cases ha
    refine m.image.get_set_of_ne v fun heq => hb ?_
    exact heq ▸ (mem_storedAt hop hfirst).1
  | @word hop hwide place hfirst a ha v =>
    refine ⟨fun _ _ _ _ _ _ => rfl, rfl, fun b hb => ?_, rfl, fun _ => rfl⟩
    rw [m.addressOf_of_spelled (hi.operand _ (Operands.mem_of_first hfirst))] at ha
    cases ha
    obtain ⟨hlow, hhigh⟩ := mem_storedAt (m := m) hop hfirst
    dsimp only
    rw [Image.setWord, Image.get_set_of_ne, Image.get_set_of_ne]
    · exact fun heq => hb (heq ▸ hlow)
    · exact fun heq => hb (heq ▸ hhigh hwide)
  | flags hop a b result width subtract =>
    refine framed_setWord (.inr (.inl rfl)) (fun _ => ?_) (fun hip => absurd hip (by decide))
      (storedAt_congr hi fun r hr _ => ?_)
    · rw [Instruction.flagsSet, if_pos hop]
      exact Flags.ofOperands_and_not ..
    · exact m.registers.word_setWord_of_ne hr.symm _
  | count hop =>
    have hstores : i.storesResult = false := decide_eq_false
      ((show ∀ op ∈ [Operation.loop, .loopz, .loopnz], op ∉ [.mov, .add, .sub] by decide) _ hop)
    refine framed_setWord (.inr (.inr fun k => ?_)) (fun hflags => absurd hflags (by decide))
      (fun hip => absurd hip (by decide)) ?_
    · rw [Instruction.writesByte, decide_eq_true hop]
      exact Bool.or_true _
    · rw [storedAt_of_not_storesResult hstores, storedAt_of_not_storesResult hstores]
  | ip hop v =>
    exact framed_setWord (.inl rfl) (fun hflags => absurd hflags (by decide)) (fun _ => hop)
      (storedAt_congr hi fun r _ hr => m.registers.word_setWord_of_ne hr.symm v)

theorem framed_execute (hi : i.Legible) (m : Machine) (ip : UInt16) :
    Framed i m (m.execute i ip).2 :=
  m.relates_execute .refl .trans (framed_of_effect hi) ip

theorem takes_of_condition? {op : Operation} {taken : Bool}
    (h : op.condition? m.registers.flags = some taken) : m.takes op = taken := by
  rw [takes.eq_def]
  split
  case h_6 => rw [h, Option.getD_some]
  all_goals cases h

theorem jump_of_not_taken (m : Machine) (i : Instruction) (ip : UInt16) {taken : Bool}
    (h : taken = false) : m.jump i ip taken = (none, m) := by
  rw [h]
  rfl

/-- Unless a jump is taken, `ip` stays behind the instruction. -/
theorem ip_execute_of_not_takes (hi : i.Legible) (h : m.takes i.operation = false) (ip : UInt16) :
    (m.execute i ip).2.ip = m.ip := by
  have hmoves : i.operation ∈ [.mov, .add, .sub, .cmp] → (m.execute i ip).2.ip = m.ip :=
    (framed_execute hi m ip).ip
  have hcount : ∀ holds, (m.registers.word .c - 1 != 0 && holds) = false →
      (m.countDown i ip holds).2.ip = m.ip := by
    intro holds hholds
    rw [countDown, jump_of_not_taken _ i ip hholds]
    exact m.registers.word_setWord_of_ne (x := .c) (y := .ip) (by decide) _
  -- the operations with a destination keep `ip` by their frame, the others move it by a jump only
  rw [execute.eq_def] at hmoves ⊢
  split at hmoves <;> rename_i hop
  case h_1 | h_2 | h_3 | h_4 => exact hmoves (by simp [hop])
  case h_5 =>
    rw [hop] at h
    cases h
  case h_6 =>
    rw [hop] at h
    exact congrArg (fun outcome => outcome.2.ip) (m.jump_of_not_taken i ip h)
  case h_7 =>
    rw [hop] at h
    exact hcount true ((Bool.and_true _).trans h)
  case h_8 | h_9 =>
    rw [hop] at h
    exact hcount _ h
  case h_10 | h_11 => rfl
  case h_12 =>
    split
    · rename_i hcondition
      rw [jump_of_not_taken m i ip ((takes_of_condition? hcondition).symm.trans h)]
    · rw [refuse_snd]

end Effects

/-! ## A step -/

/-- **A step touches only its destination.**  If what waits is left over from decoding and a step
executes `i`, all bytes of registers, all flags and all bytes of memory are as before that `i` may
not change.  The address of the destination is computed before the step.  Unless a jump is taken,
`ip` is behind the prefixes and `i`. -/
theorem executed_step_frame {calls : List (Image × Cursor)} {m m' : Machine} {i : Instruction}
    (hm : m.pending = Pending.clear.through calls) (h : m.step = (.executed i, m')) :
    (∀ x, x ≠ .ip → x ≠ .flags → ∀ k < 2, i.writesByte x k = false →
        m'.registers.byte x k = m.registers.byte x k) ∧
      m'.registers.flags &&& ~~~i.flagsSet = m.registers.flags &&& ~~~i.flagsSet ∧
      (∀ a ∉ m.storedAt i, m'.image.get a = m.image.get a) ∧
      (m.takes i.operation = false →
        m'.ip.toNat = (m.ip.toNat + total m.leading + i.size.toNat) % 65536) := by
  cases ends_of_step h nofun with
  | @executed x _ hx hp hexecute =>
    have hlegible := legible_of_decodeWithin (ofRun_passed hm) hx
    have hword : ∀ r, r ≠ .ip → ((m.behind (total m.leading)).ready x).registers.word r =
        m.registers.word r := fun r hr => by rw [word_ready _ _ hr, m.word_behind _ hr]
    have hframe := framed_execute hlegible ((m.behind (total m.leading)).ready x)
      (m.behind (total m.leading)).ip
    rw [hexecute] at hframe
    refine ⟨fun r hip hflags k hk hr => ?_, ?_, fun a ha => ?_, fun htakes => ?_⟩
    · rw [hframe.byte r hip hflags k hk hr, Registers.byte, hword r hip]
      rfl
    · rw [hframe.flags, Registers.flags, hword .flags (by decide)]
      rfl
    · rw [← storedAt_congr hlegible fun r _ hr => hword r hr] at ha
      exact hframe.image a ha
    · have hstays := ip_execute_of_not_takes hlegible
        (m := (m.behind (total m.leading)).ready x)
        ((takes_setIp _ _ _ _).trans ((takes_setIp _ _ _ _).trans htakes))
        (m.behind (total m.leading)).ip
      rw [hexecute] at hstays
      rw [hstays, ip_ready hx, UInt16.toNat_add, ip_behind, UInt16.toNat_add, UInt16.toNat_ofNat',
        UInt32.toNat_toUInt16]
      omega

/-- `add [bx+5], cl` behind a `lock`, with an offset that wraps around: nothing but one byte of
memory and the flags may change. -/
theorem add_byte_touches_one_byte :
    let start := new (Image.zero.setRange 0 [0xF0, 0x00, 0x4F, 0x05]) 4
    let m := { start with registers := (start.registers.setWord .b 0xFFFE).setWord .c 0x1234 }
    let add : Instruction :=
      ⟨1, 3, .add, .lock, ⟨some (.memory ⟨.ds, .bx, 5⟩), some (.register (.low .c)), none⟩⟩
    ∃ m', m.step = (.executed add, m') ∧
      (∀ x, x ≠ .ip → x ≠ .flags → ∀ k < 2, m'.registers.byte x k = m.registers.byte x k) ∧
      m'.registers.flags &&& ~~~Flags.arithmetic = m.registers.flags &&& ~~~Flags.arithmetic ∧
      (∀ a, a ≠ 3 → m'.image.get a = m.image.get a) ∧ m'.ip.toNat = 4 := by
  intro start m add
  obtain ⟨hresult, hstored, hip⟩ : m.step.1 = .executed add ∧ m.storedAt add = [3] ∧
      m.ip.toNat + total m.leading = 1 := by
    decide +kernel
  have hm : m.pending = Pending.clear.through [] := rfl
  obtain ⟨m', hstep⟩ := exists_step_eq hresult
  obtain ⟨hbyte, hflags, himage, hmoved⟩ := executed_step_frame hm hstep
  refine ⟨m', hstep, fun x hx hx' k hk => hbyte x hx hx' k hk rfl, hflags, fun a ha => ?_, ?_⟩
  · refine himage a ?_
    rw [hstored]
    simpa using ha
  · rw [hmoved rfl, hip]
    rfl

end Machine
end I8086
