import I8086.Proofs.Distances
import I8086.Proofs.Orders
import I8086.Proofs.Resuming
import I8086.Proofs.Spelling
import I8086.Proofs.Straight

/-!
# Counted loops

A loop is a body and a `loop` behind it that goes back to the start of the body.  The body consists
of instructions between registers, and it is executed as often as `cx` says.

* `Image.Plain` says that instructions stand one behind the other without prefixes, and
  `Decoder.plain_decodeAll` that the instructions of a region do.
* `Machine.Reaches` is a part of a run.  `Machine.reaches_body` goes through a body and
  `Machine.reaches_loop` through the `loop` behind it.  Together they are
  `Machine.Loops.reaches_pass`.
* `Machine.passes` are the passes without the `loop`, and `Machine.Loops.reaches_passes` is the
  induction over them.
-/

set_option autoImplicit false

namespace I8086

open Instruction

/-! ## Parts of runs -/

namespace Machine

/-- A run without a limit comes from `m` to `m'` in `k` steps. -/
def Reaches (k : Nat) (m m' : Machine) : Prop :=
  ∀ (fuel steps : Nat) (trace : Option Output), Accepts trace → ∃ trace', Accepts trace' ∧
    runFrom (fuel + k) steps m trace = runFrom fuel (steps + k) m' trace'

theorem Reaches.refl (m : Machine) : Reaches 0 m m :=
  fun _ _ trace htrace => ⟨trace, htrace, rfl⟩

theorem Reaches.trans {j k : Nat} {m m' m'' : Machine} (h : Reaches j m m')
    (h' : Reaches k m' m'') : Reaches (j + k) m m'' := by
  intro fuel steps trace htrace
  obtain ⟨trace', htrace', hrun⟩ := h (fuel + k) steps trace htrace
  obtain ⟨trace'', htrace'', hrun'⟩ := h' fuel (steps + j) trace' htrace'
  refine ⟨trace'', htrace'', ?_⟩
  rw [Nat.add_comm j k, ← Nat.add_assoc, hrun, hrun', Nat.add_comm k j, Nat.add_assoc]

theorem reaches_of_step {m m' : Machine} {i : Instruction} (hdone : m.done = false)
    (hmax : m.maxSteps ≤ 0) (hstep : m.step = (.executed i, m')) (hi : i.operation ≠ .hlt) :
    Reaches 1 m m' := by
  intro fuel steps trace htrace
  have hreached : m.limitReached steps = false := by
    rw [limitReached, decide_eq_false (Int.not_lt.2 hmax), Bool.false_and]
  refine ⟨_, htrace.extend m.taken.line?.toList, ?_⟩
  rw [runFrom_succ hdone hreached htrace, hstep, StepResult.ends?, if_neg hi]

/-- A step through an instruction that no prefix stands in front of. -/
theorem step_of_decodeOne {m m' : Machine} {x : Decoded}
    (hx : decodeOne m.pending m.image m.cursor = .ok x) (hp : x.instruction.isPrefix = false)
    (hend : m.ip.toNat + x.instruction.size.toNat ≤ m.size.toNat)
    (hexecute : ({ m with pending := x.pending }.setIp x.cursor.offset).execute x.instruction m.ip =
      (none, m')) : m.step = (.executed x.instruction, m') := by
  have hinside : ¬ m.ip.toUInt32 + x.instruction.size > m.size := by
    have hlt := m.size.toNat_lt
    rw [gt_iff_lt, UInt32.lt_iff_toNat_lt, UInt32.toNat_add, UInt16.toNat_toUInt32]
    omega
  rw [step, stepWithin, fetch, hx]
  dsimp only
  rw [if_neg hinside, hp, if_neg Bool.false_ne_true]
  dsimp only
  rw [hexecute]

end Machine

/-! ## Instructions without prefixes -/

namespace Image

/-- The instructions are decoded one behind the other from a place on, without prefixes. -/
def Plain (image : Image) : Cursor → List Instruction → Prop
  | _, [] => True
  | cursor, i :: rest =>
    decodeOne .clear image cursor = .ok ⟨i, cursor.advance i.size, .clear⟩ ∧
      image.Plain (cursor.advance i.size) rest

variable {image image' : Image} {cursor : Cursor}

theorem plain_append {is js : List Instruction} :
    image.Plain cursor (is ++ js) ↔
      image.Plain cursor is ∧ image.Plain (cursor.advance (.ofNat (total is))) js := by
  induction is generalizing cursor with
  | nil => simp [Plain]
  | cons i is ih =>
    rw [List.cons_append, Plain, Plain, ih, Cursor.advance_advance, total_cons, UInt32.ofNat_add,
      UInt32.ofNat_toNat, and_assoc]

/-- Instructions are the same in another image that has their bytes. -/
theorem Plain.of_along_eq {is : List Instruction} (h : image.Plain cursor is)
    (hbytes : ∀ k < total is, image'.along cursor k = image.along cursor k) :
    image'.Plain cursor is := by
  induction is generalizing cursor with
  | nil => trivial
  | cons i is ih =>
    obtain ⟨hi, hrest⟩ := h
    have hfirst : ∀ k < i.size.toNat, image'.along cursor k = image.along cursor k :=
      fun k hk => hbytes k (by rw [total_cons]; omega)
    have hmoved := decodeWithin_of_along_eq hi hfirst
    have haddress : i.moveTo cursor.address.toWord = i := by
      rw [← address_of_decodeWithin hi, moveTo]
    refine ⟨?_, ih hrest fun k hk => ?_⟩
    · rw [decodeOne, hmoved, haddress]
    · have hk' := hbytes (i.size.toNat + k) (by rw [total_cons]; omega)
      rwa [along, along, Cursor.addressAt_add, UInt32.ofNat_toNat] at hk'

end Image

/-- The instructions of a region stand in the image, and nothing waits if none is a prefix. -/
theorem Decoder.plain_decodeAll {image : Image} {start : Cursor} {count : UInt32}
    (h : ∀ i ∈ (new image start count).decodeAll.2.decoded.toList, i.isPrefix = false) :
    image.Plain start (new image start count).decodeAll.2.decoded.toList := by
  have hinvariant : ∀ d : Decoder, (d.image = image ∧ d.Tracks start count ∧
      ((∀ i ∈ d.decoded.toList, i.isPrefix = false) →
        d.pending = .clear ∧ image.Plain start d.decoded.toList)) →
      d.next.2.image = image ∧ d.next.2.Tracks start count ∧
        ((∀ i ∈ d.next.2.decoded.toList, i.isPrefix = false) →
          d.next.2.pending = .clear ∧ image.Plain start d.next.2.decoded.toList) := by
    rintro d ⟨himage, htracks, hplain⟩
    rcases d.next_cases with ⟨e, he⟩ | ⟨x, -, hx, hnext⟩
    · rw [he]
      exact ⟨himage, htracks, hplain⟩
    · refine ⟨hnext ▸ himage, htracks.next, ?_⟩
      rw [hnext, take, Array.toList_push]
      intro hall
      rw [List.forall_mem_append, List.forall_mem_singleton] at hall
      obtain ⟨hpending, hplain⟩ := hplain hall.1
      have hclear : x.pending = .clear := by
        rw [pending_of_decodeWithin hx, hall.2, if_neg Bool.false_ne_true]
      have hone : decodeOne .clear image d.cursor =
          .ok ⟨x.instruction, d.cursor.advance x.instruction.size, .clear⟩ := by
        rw [← himage, ← hpending, (decodeOne_of_decodeWithin hx).1, ← cursor_of_decodeWithin hx,
          hpending, ← hclear]
      have htotal : total d.decoded.toList = d.pos.toNat := htracks.sum_sizes
      refine ⟨hclear, Image.plain_append.2 ⟨hplain, ?_⟩⟩
      rw [htotal, UInt32.ofNat_toNat, ← htracks.cursor_eq]
      exact ⟨hone, trivial⟩
  exact (preserved_by_decodeAll hinvariant _ ⟨rfl, .new image start count, fun _ => ⟨rfl, trivial⟩⟩
    |>.2.2 h).2

/-! ## A pass through the loop -/

namespace Machine

theorem Keeps.cursor_eq {m m' : Machine} (h : m.Keeps m') (v : UInt16) :
    (m'.setIp v).cursor = ⟨m.cursor.segment, v⟩ := by
  obtain ⟨r, rfl, hr⟩ := h
  rw [cursor, cs_setIp, ip_setIp]
  exact congrArg (Cursor.mk · v) (hr .cs (by simp))

theorem done_eq_false {m : Machine} (h : m.ip.toNat < m.size.toNat) : m.done = false := by
  refine decide_eq_false fun hle => ?_
  rw [ge_iff_le, UInt32.le_iff_toNat_le, UInt16.toNat_toUInt32] at hle
  omega

/-- One instruction of a body. -/
theorem reaches_straight {i : Instruction} (hstraight : i.Straight) (hlegible : i.Legible)
    {m : Machine}
    (hi : decodeOne .clear m.image m.cursor = .ok ⟨i, m.cursor.advance i.size, .clear⟩)
    (hpending : m.pending = .clear) (hmax : m.maxSteps ≤ 0)
    (hend : m.ip.toNat + i.size.toNat ≤ m.size.toNat) :
    Reaches 1 m ((m.execute i 0).2.setIp (m.cursor.advance i.size).offset) := by
  have hsize : 0 < i.size.toNat := (size_of_decodeWithin hi).1
  have hop : ∀ op ∈ [Operation.mov, .add, .sub, .cmp], op.isPrefix = false ∧ op ≠ .hlt := by
    decide
  obtain ⟨hp, hhlt⟩ := hop i.operation hstraight.operation_mem
  have hexecute := execute_setIp hstraight hlegible m (m.cursor.advance i.size).offset m.ip 0
  have hsame : { m with pending := .clear } = m := by rw [← hpending]
  refine reaches_of_step (done_eq_false (by omega)) hmax ?_ hhlt
  exact step_of_decodeOne (x := ⟨i, m.cursor.advance i.size, .clear⟩) (hpending.symm ▸ hi) hp hend
    (hsame.symm ▸ hexecute)

/-- **One pass.**  A machine that stands in front of a body executes it. -/
theorem reaches_body {is : List Instruction} (hbody : ∀ i ∈ is, i.Straight ∧ i.Legible)
    {m : Machine} (hplain : m.image.Plain m.cursor is) (hpending : m.pending = .clear)
    (hmax : m.maxSteps ≤ 0) (hend : m.ip.toNat + total is ≤ m.size.toNat)
    (hsegment : m.ip.toNat + total is < 65536) :
    Reaches is.length m
      ((m.executeAll is).setIp (m.cursor.advance (.ofNat (total is))).offset) := by
  induction is generalizing m with
  | nil =>
    have hip : (m.cursor.advance (.ofNat (total []))).offset = m.ip :=
      congrArg Cursor.offset m.cursor.advance_zero
    rw [hip, executeAll, List.foldl_nil, setIp_ip]
    exact .refl m
  | cons i is ih =>
    obtain ⟨hi, hrest⟩ := hplain
    rw [List.forall_mem_cons] at hbody
    obtain ⟨⟨hstraight, hlegible⟩, hbody⟩ := hbody
    rw [total_cons] at hend hsegment
    have hkeeps : m.Keeps (m.execute i 0).2 := (keeps_execute hstraight hlegible m 0).2
    have hfirst := reaches_straight hstraight hlegible hi hpending hmax (by omega)
    have hcursor : ((m.execute i 0).2.setIp (m.cursor.advance i.size).offset).cursor =
        m.cursor.advance i.size := hkeeps.cursor_eq _
    have hadvance : (m.cursor.advance i.size).advance (.ofNat (total is)) =
        m.cursor.advance (.ofNat (total (i :: is))) := by
      rw [Cursor.advance_advance, total_cons, UInt32.ofNat_add, UInt32.ofNat_toNat]
    have hnext : (m.cursor.advance i.size).offset.toNat = m.ip.toNat + i.size.toNat := by
      rw [show (m.cursor.advance i.size).offset = m.ip + i.size.toUInt16 from rfl,
        UInt16.toNat_add, UInt32.toNat_toUInt16]
      omega
    rw [executeAll, List.foldl_cons, ← executeAll]
    -- the machine behind the first instruction differs from `m` in registers only
    obtain ⟨r, hr, -⟩ := hkeeps
    rw [hr] at hfirst hcursor ⊢
    let m₁ := ({ m with registers := r } : Machine).setIp (m.cursor.advance i.size).offset
    have hplain : m₁.image.Plain m₁.cursor is := hcursor.symm ▸ hrest
    have hip : m₁.ip.toNat = m.ip.toNat + i.size.toNat := (congrArg _ (ip_setIp ..)).trans hnext
    have hothers := ih hbody hplain hpending hmax
      (by rw [hip, Nat.add_assoc]; exact hend) (by omega)
    rw [executeAll_setIp hbody, setIp_setIp, hcursor, hadvance] at hothers
    rw [List.length_cons, Nat.add_comm]
    exact hfirst.trans hothers

end Machine

/-- The byte `E2` starts a `loop`, whatever its distance is. -/
theorem decodeOne_loop {image : Image} {cursor : Cursor} (h : image.along cursor 0 = 0xE2) :
    ∃ x, decodeOne .clear image cursor = .ok x ∧ x.instruction.operation = .loop ∧
      x.instruction.size = 2 := by
  let format := Table.jump .loop 0b11100010
  have hmem : format ∈ Table.formats := by decide
  have hdescribes : format.Describes (image.along cursor) := by
    apply Format.describes_of_literals
    have hliteral : UInt32.ofNat (bitsAt (image.along cursor) 0 8) = 0b11100010 := by
      rw [show bitsAt (image.along cursor) 0 8 = (image.along cursor 0).toNat / 1 % 256 from rfl, h]
      rfl
    exact Bool.and_eq_true_iff.2 ⟨beq_iff_eq.2 hliteral, rfl⟩
  have hsize : format.sizeAt (image.along cursor) = 2 := Table.sizeAt_jump ..
  obtain ⟨ops, -, hiff⟩ := (Table.wellFormed format hmem).attempt_eq_ok_iff image cursor
  have hattempt := (hiff 1048576 _).2 ⟨⟨hdescribes, by rw [hsize]; decide⟩, rfl⟩
  have hfound := firstMatch_of_attempt hmem hattempt fun he => absurd he (by decide)
  refine ⟨_, by rw [decodeOne, decodeWithin, decodeWith, hfound], rfl, ?_⟩
  show UInt32.ofNat (format.sizeAt (image.along cursor)) = 2
  rw [hsize]
  rfl

namespace Machine

def setCount (m : Machine) (v : UInt16) : Machine :=
  { m with registers := m.registers.setWord .c v }

theorem setCount_setIp (m : Machine) (v w : UInt16) :
    (m.setIp v).setCount w = (m.setCount w).setIp v :=
  congrArg (fun registers => { m with registers })
    (m.registers.setWord_comm (x := .ip) (y := .c) (by decide) v w)

theorem execute_loop {p : Pending} {image : Image} {cursor : Cursor} {x : Decoded}
    (hx : decodeOne p image cursor = .ok x) (hop : x.instruction.operation = .loop) (m : Machine) :
    let count := m.registers.word .c - 1
    m.execute x.instruction cursor.offset = (none, if count = 0 then m.setCount count else
      (m.setCount count).setIp
        (cursor.offset + 2 + (image.along cursor 1).toInt8.toInt16.toUInt16)) := by
  intro count
  obtain ⟨-, distance, hfirst, hdistance⟩ := jump_of_decodeOne hx (by rw [hop]; rfl)
  rw [execute, hop]
  dsimp only
  rw [countDown, jump, hfirst]
  by_cases hcount : count = 0
  · rw [if_pos hcount, if_neg (by simpa [count] using hcount)]
    rfl
  · rw [if_neg hcount, if_pos (by simpa [count] using hcount), UInt16.add_assoc, ← hdistance]
    rfl

/-- The `loop` behind a body. -/
theorem reaches_loop {m : Machine} (h : m.image.along m.cursor 0 = 0xE2)
    (hpending : m.pending = .clear) (hmax : m.maxSteps ≤ 0)
    (hend : m.ip.toNat + 2 ≤ m.size.toNat) :
    let count := m.registers.word .c - 1
    Reaches 1 m ((m.setCount count).setIp (if count = 0 then m.ip + 2 else
      m.ip + 2 + (m.image.along m.cursor 1).toInt8.toInt16.toUInt16)) := by
  intro count
  obtain ⟨x, hx, hop, hsize⟩ := decodeOne_loop h
  have hp : x.instruction.isPrefix = false := by
    rw [Instruction.isPrefix, hop]
    rfl
  have hclear : x.pending = .clear := by
    rw [pending_of_decodeWithin hx, hp, if_neg Bool.false_ne_true]
  have hoffset : x.cursor.offset = m.ip + 2 := by
    rw [cursor_of_decodeWithin hx, hsize]
    rfl
  have hsame : { m with pending := x.pending } = m := by rw [hclear, ← hpending]
  have hcount : (m.setIp (m.ip + 2)).registers.word .c = m.registers.word .c :=
    m.registers.word_setWord_of_ne (x := .ip) (y := .c) (by decide) _
  have hexecute := execute_loop hx hop (m.setIp (m.ip + 2))
  dsimp only at hexecute
  rw [hcount, setCount_setIp, setIp_setIp] at hexecute
  refine reaches_of_step (done_eq_false (by omega)) hmax
    (step_of_decodeOne (hpending.symm ▸ hx) hp (by rw [hsize]; exact hend) ?_) (by rw [hop]; decide)
  rw [hsame, hoffset]
  refine hexecute.trans (congrArg (Prod.mk none) ?_)
  split
  · rfl
  · rfl

/-! ## All passes -/

/-- A loop with the given body stands at the beginning of the program. -/
structure Loops (m : Machine) (is : List Instruction) : Prop where
  body : ∀ i ∈ is, i.Straight ∧ i.Legible
  plain : m.image.Plain ⟨0, 0⟩ is
  total_le : total is ≤ 126
  opcode : m.image.along ⟨0, .ofNat (total is)⟩ 0 = 0xE2
  distance : m.image.along ⟨0, .ofNat (total is)⟩ 1 = -.ofNat (total is + 2)
  cs_eq : m.registers.word .cs = 0
  pending_eq : m.pending = .clear
  maxSteps_le : m.maxSteps ≤ 0
  size_eq : m.size.toNat = total is + 2

variable {m : Machine} {is : List Instruction}

theorem Loops.setRegisters (h : m.Loops is) {r : Registers} (hr : r.word .cs = 0) :
    ({ m with registers := r } : Machine).Loops is :=
  { h with cs_eq := hr }

theorem Loops.setCount (h : m.Loops is) (v : UInt16) : (m.setCount v).Loops is :=
  h.setRegisters ((m.registers.word_setWord_of_ne (x := .c) (y := .cs) (by decide) v).trans h.cs_eq)

theorem Loops.executeAll (h : m.Loops is) : (m.executeAll is).Loops is := by
  obtain ⟨r, hr, hwords⟩ := keeps_executeAll h.body m
  rw [hr]
  exact h.setRegisters ((hwords .cs (by simp)).trans h.cs_eq)

theorem Loops.cursor_setIp (h : m.Loops is) (v : UInt16) : (m.setIp v).cursor = ⟨0, v⟩ := by
  rw [cursor, cs_setIp, ip_setIp, h.cs_eq]

/-- The distance of the `loop` leads to the start of the body. -/
theorem loop_target {n : Nat} (h : n ≤ 126) :
    UInt16.ofNat n + 2 + (-UInt8.ofNat (n + 2)).toInt8.toInt16.toUInt16 = 0 :=
  (show ∀ n < 127, UInt16.ofNat n + 2 + (-UInt8.ofNat (n + 2)).toInt8.toInt16.toUInt16 = 0 by
    decide) n (Nat.lt_succ_of_le h)

/-- **A pass through the loop** executes the body, counts down and goes back unless it was the last
one. -/
theorem Loops.reaches_pass (h : m.Loops is) :
    let count := m.registers.word .c - 1
    Reaches (is.length + 1) (m.setIp 0) (((m.executeAll is).setCount count).setIp
      (if count = 0 then .ofNat (total is + 2) else 0)) := by
  intro count
  have htotal := h.total_le
  have hsize := h.size_eq
  have hsame : (m.executeAll is).Loops is := h.executeAll
  have hcount : ((m.executeAll is).setIp (.ofNat (total is))).registers.word .c - 1 = count := by
    obtain ⟨r, hr, hwords⟩ := keeps_executeAll h.body m
    rw [hr]
    exact congrArg (· - 1) ((r.word_setWord_of_ne (x := .ip) (y := .c) (by decide) _).trans
      (hwords .c (by simp)))
  have hbody : Reaches is.length (m.setIp 0) ((m.executeAll is).setIp (.ofNat (total is))) := by
    have hoffset : (Cursor.advance ⟨0, 0⟩ (.ofNat (total is))).offset = .ofNat (total is) := by
      rw [show (Cursor.advance ⟨0, 0⟩ (.ofNat (total is))).offset =
        0 + (UInt32.ofNat (total is)).toUInt16 from rfl, UInt16.zero_add, UInt32.toUInt16_ofNat']
    have hend : (m.setIp 0).ip.toNat + total is ≤ (m.setIp 0).size.toNat := by
      rw [ip_setIp, UInt16.toNat_zero, Nat.zero_add]
      exact hsize ▸ Nat.le_add_right ..
    have hpass := reaches_body h.body (m := m.setIp 0) (by rw [h.cursor_setIp]; exact h.plain)
      h.pending_eq h.maxSteps_le hend (by rw [ip_setIp, UInt16.toNat_zero]; omega)
    rwa [executeAll_setIp h.body, setIp_setIp, h.cursor_setIp, hoffset] at hpass
  have hend : ((m.executeAll is).setIp (.ofNat (total is))).ip.toNat + 2 ≤
      ((m.executeAll is).setIp (.ofNat (total is))).size.toNat := by
    rw [ip_setIp, UInt16.toNat_ofNat', Nat.mod_eq_of_lt (by omega)]
    exact Nat.le_of_eq hsame.size_eq.symm
  have hdistance : ((m.executeAll is).setIp (.ofNat (total is))).image.along
      ((m.executeAll is).setIp (.ofNat (total is))).cursor 1 = -.ofNat (total is + 2) := by
    rw [hsame.cursor_setIp]
    exact hsame.distance
  have hloop := reaches_loop (m := (m.executeAll is).setIp (.ofNat (total is)))
    (by rw [hsame.cursor_setIp]; exact hsame.opcode) hsame.pending_eq hsame.maxSteps_le hend
  dsimp only at hloop
  rw [hdistance, hcount, setCount_setIp, setIp_setIp, ip_setIp, loop_target htotal] at hloop
  rw [UInt16.ofNat_add]
  exact hbody.trans hloop

/-- Passes through a body, the first one with `n` in `cx`, the next one with `n - 1`, and so on. -/
def passes (m : Machine) (is : List Instruction) (n : UInt16) : Nat → Machine
  | 0 => m
  | k + 1 => ((m.passes is n k).setCount (n - .ofNat k)).executeAll is

theorem Loops.passes (h : m.Loops is) (n : UInt16) (k : Nat) : (m.passes is n k).Loops is := by
  induction k with
  | zero => exact h
  | succ k ih => exact (ih.setCount _).executeAll

/-- How often a loop is passed that starts with `n` in `cx`. -/
def passCount (n : UInt16) : Nat := if n = 0 then 65536 else n.toNat

/-- The counter reaches zero after the last pass, and not earlier. -/
theorem sub_eq_zero_iff {n : UInt16} {k : Nat} (hpos : 0 < k) (hk : k ≤ passCount n) :
    n - .ofNat k = 0 ↔ k = passCount n := by
  have hlt := n.toNat_lt
  rw [passCount] at hk ⊢
  rw [← UInt16.toNat_inj, UInt16.toNat_sub, UInt16.toNat_ofNat', UInt16.toNat_zero]
  split at hk
  · rename_i hn
    rw [if_pos hn, hn, UInt16.toNat_zero]
    omega
  · rename_i hn
    have hn' : n.toNat ≠ 0 := fun h => hn (UInt16.toNat_inj.1 h)
    rw [if_neg hn]
    omega

theorem passCount_pos (n : UInt16) : 0 < passCount n := by
  rw [passCount]
  split
  · decide
  · rename_i hn
    exact Nat.pos_of_ne_zero fun h => hn (UInt16.toNat_inj.1 h)

theorem word_setCount (m : Machine) (v : UInt16) : (m.setCount v).registers.word .c = v :=
  m.registers.word_setWord_self (x := .c) rfl v

/-- Pass number `k`. -/
theorem Loops.reaches_next (h : m.Loops is) (n : UInt16) (k : Nat) :
    Reaches (is.length + 1) (((m.passes is n k).setCount (n - .ofNat k)).setIp 0)
      (((m.passes is n (k + 1)).setCount (n - .ofNat (k + 1))).setIp
        (if n - .ofNat (k + 1) = 0 then .ofNat (total is + 2) else 0)) := by
  have hpass := ((h.passes n k).setCount (n - .ofNat k)).reaches_pass
  have hcount : n - .ofNat k - 1 = n - .ofNat (k + 1) := by
    rw [UInt16.ofNat_add, show UInt16.ofNat 1 = 1 from rfl]
    grind
  rwa [word_setCount, hcount] at hpass

/-- After `k` passes that were not the last one, the machine stands at the start of the body. -/
theorem Loops.reaches_passes (h : m.Loops is) {k : Nat}
    (hk : k < passCount (m.registers.word .c)) :
    let n := m.registers.word .c
    Reaches (k * (is.length + 1)) (m.setIp 0)
      (((m.passes is n k).setCount (n - .ofNat k)).setIp 0) := by
  intro n
  induction k with
  | zero =>
    have hcount : (m.passes is n 0).setCount (n - .ofNat 0) = m := by
      rw [show n - .ofNat 0 = n from UInt16.sub_zero n]
      exact congrArg (fun registers => { m with registers }) (m.registers.setWord_word .c)
    rw [hcount, Nat.zero_mul]
    exact .refl _
  | succ k ih =>
    have hlast : n - .ofNat (k + 1) ≠ 0 := fun hzero =>
      Nat.ne_of_lt hk ((sub_eq_zero_iff k.succ_pos (Nat.le_of_lt hk)).1 hzero)
    have hpass := h.reaches_next n k
    rw [if_neg hlast] at hpass
    rw [Nat.succ_mul]
    exact (ih (Nat.lt_of_succ_lt hk)).trans hpass

/-- **All passes.** -/
theorem Loops.reaches_end (h : m.Loops is) :
    let n := m.registers.word .c
    Reaches (passCount n * (is.length + 1)) (m.setIp 0)
      (((m.passes is n (passCount n)).setCount 0).setIp (.ofNat (total is + 2))) := by
  intro n
  obtain ⟨k, hk⟩ := Nat.exists_eq_add_one_of_ne_zero (Nat.ne_zero_of_lt (passCount_pos n))
  have hzero : n - .ofNat (k + 1) = 0 :=
    (sub_eq_zero_iff k.succ_pos (Nat.le_of_eq hk.symm)).2 hk.symm
  have hpass := h.reaches_next n k
  rw [hzero, if_pos rfl] at hpass
  rw [hk, Nat.succ_mul]
  exact (h.reaches_passes (Nat.lt_of_succ_le (Nat.le_of_eq hk.symm))).trans hpass

theorem Loops.image_passes (h : m.Loops is) (n : UInt16) (k : Nat) :
    (m.passes is n k).image = m.image := by
  induction k with
  | zero => rfl
  | succ k ih =>
    obtain ⟨r, hr, -⟩ := keeps_executeAll h.body ((m.passes is n k).setCount (n - .ofNat k))
    rw [Machine.passes, hr]
    exact ih

end Machine

/-- The bytes of a program at the start of an image. -/
theorem Image.along_setRange (base : Image) {bytes : List UInt8} (hlen : bytes.length ≤ 65536)
    {a k : Nat} (h : a + k < bytes.length) :
    (base.setRange 0 bytes).along ⟨0, .ofNat a⟩ k = bytes[a + k] := by
  have haddress : (Cursor.addressAt ⟨0, .ofNat a⟩ (.ofNat k)).toNat = a + k := by
    rw [Cursor.addressAt, Address.toNat_ofSegment, UInt16.toNat_zero, UInt16.toNat_ofNat',
      UInt16.toNat_ofNat', imageSize]
    omega
  rw [along, get_setRange, if_pos (Nat.zero_le _), haddress, Nat.sub_zero,
    List.getElem?_eq_getElem h, Option.getD_some]

/-- A body and a `loop` behind it that goes back to the start of the body. -/
def loopProgram (body : List UInt8) : List UInt8 :=
  body ++ [0xE2, -.ofNat (body.length + 2)]

theorem length_loopProgram (body : List UInt8) : (loopProgram body).length = body.length + 2 :=
  List.length_append

namespace Machine

/-- A machine for the loop. -/
def newLoop (base : Image) (body : List UInt8) (r : Registers) : Machine :=
  { new (base.setRange 0 (loopProgram body)) (.ofNat (body.length + 2)) with
    registers := r
    maxSteps := 0 }

section Loop

variable (base : Image) {body : List UInt8} (hlen : body.length ≤ 126) {d : Decoder}
  (hdecode : (Decoder.ofProgram body).decodeAll = (none, d))
  (hstraight : ∀ i ∈ d.decoded.toList, i.Straight)

include hlen hdecode

theorem total_decoded_body : total d.decoded.toList = body.length := by
  have hcount : (UInt32.ofNat (min body.length imageSize)).toNat = body.length := by
    rw [UInt32.toNat_ofNat', imageSize]
    omega
  have htracks : d.Tracks ⟨0, 0⟩ (.ofNat (min body.length imageSize)) := by
    rw [← show (Decoder.ofProgram body).decodeAll.2 = d from congrArg Prod.snd hdecode]
    exact Decoder.tracks_after _ _ _ [.decodeAll]
  have hsum : total d.decoded.toList = d.pos.toNat := htracks.sum_sizes
  rw [hsum, Decoder.eq_of_decodeAll_eq_none hdecode, hcount]

include hstraight

theorem loops_newLoop {r : Registers} (hcs : r.word .cs = 0) :
    (newLoop base body r).Loops d.decoded.toList := by
  have hd : (Decoder.ofProgram body).decodeAll.2 = d := congrArg Prod.snd hdecode
  have htotal := total_decoded_body hlen hdecode
  have hlength := length_loopProgram body
  have hlegible : ∀ i ∈ d.decoded.toList, i.Legible := by
    rw [← hd]
    exact fun i hi => @Decoder.legible_of_mem_after _ _ _ [.decodeAll] _ hi
  have hplain : (Image.zero.setRange 0 body).Plain ⟨0, 0⟩ d.decoded.toList := by
    have hprefix : ∀ i ∈ d.decoded.toList, i.isPrefix = false := fun i hi =>
      (show ∀ op ∈ [Operation.mov, .add, .sub, .cmp], op.isPrefix = false by decide) i.operation
        (hstraight i hi).operation_mem
    rw [← hd] at hprefix ⊢
    exact Decoder.plain_decodeAll hprefix
  have hbyte : ∀ {a k : Nat} (h : a + k < (loopProgram body).length),
      (newLoop base body r).image.along ⟨0, .ofNat a⟩ k = (loopProgram body)[a + k] :=
    Image.along_setRange base (by omega)
  refine ⟨fun i hi => ⟨hstraight i hi, hlegible i hi⟩, hplain.of_along_eq fun k hk => ?_,
    htotal ▸ hlen, ?_, ?_, hcs, rfl, Int.le_refl 0, ?_⟩
  · rw [htotal] at hk
    have hk' : 0 + k < body.length := by omega
    refine (hbyte (a := 0) (k := k) (by omega)).trans
      (Eq.trans ?_ (Image.along_setRange .zero (by omega) hk').symm)
    exact List.getElem_append_left hk'
  · rw [htotal]
    refine (hbyte (k := 0) (by omega)).trans ?_
    simp [loopProgram]
  · rw [htotal]
    refine (hbyte (k := 1) (by omega)).trans ?_
    simp [loopProgram]
  · rw [htotal]
    exact UInt32.toNat_ofNat_of_lt' (Nat.lt_of_le_of_lt (Nat.add_le_add_right hlen 2) (by decide))

end Loop

/-- **A loop executes its body `cx` times**, and 65536 times if `cx` is zero.  The body is any
sequence of `mov`, `add`, `sub` and `cmp` between registers and constants that leaves `cx` and `cs`
alone.  Its instructions never fail and do not depend on where they stand.  A run of the loop that
has no limit, and fuel for all passes, finishes behind the loop with zero in `cx` and the same
image.  All other registers are what as many passes through the body make of them, the first one
with `n` in `cx`, the next one with `n - 1`, and so on. -/
theorem run_counted_loop (base : Image) {body : List UInt8} (hlen : body.length ≤ 126) {d : Decoder}
    (hdecode : (Decoder.ofProgram body).decodeAll = (none, d))
    (hstraight : ∀ i ∈ d.decoded.toList, i.Straight) {r : Registers} (hcs : r.word .cs = 0)
    (hip : r.word .ip = 0) :
    let is := d.decoded.toList
    let n := r.word .c
    let m := newLoop base body r
    (∀ i ∈ is, ∀ (m : Machine) (ip : UInt16), m.execute i ip = (none, (m.execute i 0).2)) ∧
      ∀ (fuel : Nat) (trace : Option Output), passCount n * (is.length + 1) ≤ fuel →
        Accepts trace → ∃ m' trace', m.run fuel trace = (.finished, m', trace') ∧
          m'.ip = .ofNat (body.length + 2) ∧ m'.registers.word .c = 0 ∧ m'.image = m.image ∧
          ∀ x, x ≠ .ip → x ≠ .c →
            m'.registers.word x = (m.passes is n (passCount n)).registers.word x := by
  intro is n m
  have htotal := total_decoded_body hlen hdecode
  have hloops : m.Loops is := loops_newLoop base hlen hdecode hstraight hcs
  refine ⟨fun i hi m ip => ?_, fun fuel trace hfuel htrace => ?_⟩
  · obtain ⟨hi, hlegible⟩ := hloops.body i hi
    rw [← setIp_ip m, execute_setIp hi hlegible m m.ip ip 0, execute_setIp hi hlegible m m.ip 0 0]
  let final := ((m.passes is n (passCount n)).setCount 0).setIp (.ofNat (total is + 2))
  have hstart : m.setIp 0 = m := by
    rw [← show m.ip = 0 from hip, setIp_ip]
  have hdone : final.done = true := by
    have hsize : final.size.toNat = total is + 2 := (hloops.passes n (passCount n)).size_eq
    refine decide_eq_true (UInt32.le_iff_toNat_le.2 ?_)
    rw [hsize, ip_setIp, UInt16.toNat_toUInt32, UInt16.toNat_ofNat']
    have := hloops.total_le
    omega
  obtain ⟨spare, rfl⟩ := Nat.exists_eq_add_of_le' hfuel
  obtain ⟨trace', -, hrun⟩ := hloops.reaches_end spare 0 trace htrace
  rw [hstart] at hrun
  refine ⟨final, trace', ?_, ?_, ?_, ?_, fun x hx hc => ?_⟩
  · exact hrun.trans (runFrom_of_done hdone)
  · rw [ip_setIp, htotal]
  · exact (Registers.word_setWord_of_ne _ (x := .ip) (y := .c) (by decide) _).trans
      (word_setCount _ 0)
  · exact hloops.image_passes n (passCount n)
  · exact (Registers.word_setWord_of_ne _ hx.symm _).trans
      (Registers.word_setWord_of_ne _ hc.symm _)

/-- `add ax, cx` in a loop adds up the numbers from `cx` down to one. -/
theorem run_counted_loop_add_ax_cx :
    let m := newLoop .zero [0x01, 0xC8] (Registers.zero.setWord .c 4)
    ∃ m' trace', m.run 8 none = (.finished, m', trace') ∧ m'.ip = 4 ∧
      m'.registers.word .c = 0 ∧ m'.registers.word .a = 4 + 3 + 2 + 1 := by
  intro m
  let add : Instruction :=
    ⟨0, 2, .add, .wide, ⟨some (.register (.whole .a)), some (.register (.whole .c)), none⟩⟩
  have hdecoded : (Decoder.ofProgram [0x01, 0xC8]).next.2.next.1 = .error .finished ∧
      (Decoder.ofProgram [0x01, 0xC8]).next.2.decoded.toList = [add] ∧
      (m.passes [add] 4 4).registers.word .a = 10 := by
    decide +kernel
  obtain ⟨hend, hlist, hsum⟩ := hdecoded
  have hall := Decoder.decodeAll_of_finished hend
  rw [Decoder.decodeAll_next] at hall
  have hstraight : ∀ i ∈ (Decoder.ofProgram [0x01, 0xC8]).next.2.decoded.toList, i.Straight := by
    rw [hlist, List.forall_mem_singleton]
    exact ⟨by decide, by simp [add, Operands.toList], by simp [add, RegisterPart.whole]⟩
  obtain ⟨-, hrun⟩ := run_counted_loop .zero (by decide) hall hstraight
    (show (Registers.zero.setWord .c 4).word .cs = 0 by decide)
    (show (Registers.zero.setWord .c 4).word .ip = 0 by decide)
  rw [hlist] at hrun
  obtain ⟨m', trace', hfinished, hip, hc, -, hother⟩ := hrun 8 none (by decide) (accepts_newTrace false)
  exact ⟨m', trace', hfinished, hip, hc, (hother .a (by decide) (by decide)).trans hsum⟩

end Machine
end I8086
