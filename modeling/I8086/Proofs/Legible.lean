import I8086.Proofs.NoFault
import I8086.Proofs.Synonyms
import I8086.Proofs.Wording

/-!
# The text of an instruction says what it does

A listing leaves things out: the address and the bytes of an instruction, a displacement of zero,
the segment of a place in memory unless a prefix names it, and the width of a place in memory if a
register shows it.  None of this makes a difference to the machine.

* `Instruction.Legible` is what the operands of decoded instructions have in common, so that texts
  tell them apart (`Instruction.Legible.operand_inj`).
* `Machine.Outcome.Agrees` compares two outcomes as a user sees them, who is shown a message and not
  the instruction in it.
-/

set_option autoImplicit false

namespace I8086

open Text

/-! ## Operands -/

/-- The operands are what the machine expects, each of them has a text of its own, and a segment
that the text leaves out is the usual one. -/
structure Instruction.Legible (i : Instruction) : Prop where
  shaped : i.Shaped
  arranged : i.Arranged
  operand : ∀ x ∈ i.operands.toList, x.Spelled
  usual : i.modifiers.has .segment = false → ∀ x ∈ i.operands.toList, x.inSegment .ds = x

theorem legible_of_decodeWithin {p : Pending} {image : Image} {cursor : Cursor} {limit : UInt32}
    {x : Decoded} (hp : p.OfRun) (h : decodeWithin p image cursor limit = .ok x) :
    x.instruction.Legible := by
  have hshaped := shaped_of_decodeWithin hp.isNamed_dataSegment h
  have harranged := arranged_of_decodeWithin hp h
  obtain ⟨f, hf, found, ha, -, rfl, -⟩ := decodeWithin_eq_ok h
  refine ⟨hshaped, harranged, ?_, ?_⟩
  · intro y hy
    cases y with
    | register part => exact harranged.encoded part hy
    | memory place =>
      have hnamed := hshaped.isNamed _ hy
      rw [Operand.isNamed, Bool.and_eq_true] at hnamed
      rw [Pending.operands_attach] at hy
      refine ⟨by tauto, ?_⟩
      rw [Operands.segment_of_mem_map hy]
      exact hp.whole_dataSegment_mem_encoded
    | immediate value => trivial
    | relative distance => trivial
  · intro hsegment y hy
    rw [show (p.attach found).modifiers = found.modifiers.union p.modifiers from rfl,
      Modifiers.has_union (k := 3) rfl, Bool.or_eq_false_iff] at hsegment
    rw [Pending.operands_attach, hp.dataSegment_eq_ds hsegment.2, Operands.toList_map,
      List.mem_map] at hy
    obtain ⟨z, -, rfl⟩ := hy
    exact congrFun (Operand.inSegment_comp .ds .ds) z

/-- Without its segment an operand is what it was, unless it is a place in memory. -/
theorem Operand.eq_of_inSegment_eq {x y : Operand} {r : Register}
    (hx : ∀ place, x ≠ .memory place) (h : x.inSegment r = y.inSegment r) : x = y := by
  cases x <;> cases y <;> first | exact h | cases h | exact absurd rfl (hx _)

namespace Instruction

variable {i j : Instruction}

/-- Among spelled operands the text of an operand leaves nothing out, and it shows the width of a
place in memory. -/
theorem Legible.operand_inj (hi : i.Legible) (hj : j.Legible) {first first' : Option Operand}
    {x y : Operand} (hx : x ∈ i.operands.toList) (hy : y ∈ j.operands.toList)
    (h : renderOperand i first x = renderOperand j first' y) :
    x = y ∧ ∀ place, x = .memory place → sizeWords i first = sizeWords j first' := by
  obtain ⟨hbase, hmemory⟩ := renderOperand_inj (hi.operand x hx) (hj.operand y hy) h
  refine ⟨?_, fun place hplace => (hmemory place hplace).1⟩
  by_cases hplace : ∃ place, x = .memory place
  · obtain ⟨place, hplace⟩ := hplace
    obtain ⟨-, hnamed, hsame⟩ := hmemory place hplace
    cases hsegment : i.modifiers.has .segment with
    | true => exact hsame hsegment
    | false => rw [← hi.usual hsegment x hx, ← hj.usual (hnamed ▸ hsegment) y hy, hbase]
  · exact Operand.eq_of_inSegment_eq (fun place h => hplace ⟨place, h⟩) hbase

/-! ## Distances -/

/-- What has a distance in front is a jump and has nothing else. -/
theorem Legible.of_relative (hi : i.Legible) {d : Int32}
    (hd : i.operands.first = some (.relative d)) :
    i.operands = ⟨some (.relative d), none, none⟩ ∧ i.operation.jumps = true := by
  obtain ⟨halone, -, hjumps⟩ := hi.arranged.distance d (Operands.mem_of_first hd)
  exact ⟨halone, hjumps⟩

theorem mem_operands_of_mem_writtenOperands {x : Operand} (h : x ∈ i.writtenOperands.toList) :
    x ∈ i.operands.toList := by
  rw [writtenOperands] at h
  split at h
  · obtain ⟨y, hy, hyx⟩ := List.mem_filterMap.1 h
    refine List.mem_filterMap.2 ⟨y, ?_, hyx⟩
    simp only [Operands.swap, List.mem_cons, List.not_mem_nil, or_false] at hy ⊢
    tauto
  · exact h

/-- An instruction with a distance is written with nothing else. -/
theorem written_of_relative {d : Int32} (h : i.operands = ⟨some (.relative d), none, none⟩) :
    i.written = ["$" ++ plusSigned d.toInt] := by
  rw [written, writtenOperands, h]
  split <;> rfl

theorem farPointer?_of_relative {d : Int32} (h : i.operands = ⟨some (.relative d), none, none⟩) :
    i.farPointer? = none := by
  rw [farPointer?, h]
  split <;> rfl

theorem rest_of_relative {d : Int32} (h : i.operands = ⟨some (.relative d), none, none⟩) :
    i.rest = " $" ++ plusSigned d.toInt := by
  rw [rest, farPointer?_of_relative h, written_of_relative h]
  dsimp only
  rw [if_neg (List.cons_ne_nil _ _), String.intercalate_singleton, ← String.append_assoc]
  rfl

/-- The text of a distance is the text of no other operand. -/
theorem Legible.first_of_relative (hi : i.Legible) (hj : j.Legible) (h : i.rest = j.rest)
    {d : Int32} (hd : i.operands.first = some (.relative d)) :
    j.operands.first = some (.relative d) := by
  have hmem : .relative d ∈ i.operands.toList := Operands.mem_of_first hd
  have halone := (hi.of_relative hd).1
  have hpointer : j.farPointer? = none := by
    cases hpointer : j.farPointer? with
    | none => rfl
    | some pointer =>
      have hmark : '$' ∈ j.rest.toList := by
        rw [← h, rest_of_relative halone]
        simp
      rw [rest, hpointer] at hmark
      simp [not_mem_decimal] at hmark
  have hwritten : j.written = ["$" ++ plusSigned d.toInt] := by
    rw [← written_of_relative halone]
    exact (written_inj (farPointer?_of_relative halone) hpointer h).symm
  obtain ⟨y, hy, htext⟩ := List.map_eq_singleton_iff.1 hwritten
  have hyj := mem_operands_of_mem_writtenOperands (hy ▸ List.mem_singleton_self y)
  have hsame : renderOperand i none (.relative d) = renderOperand j j.writtenOperands.first y :=
    htext.symm
  obtain ⟨rfl, -⟩ := hi.operand_inj hj hmem hyj hsame
  rw [(hj.arranged.distance d hyj).1]

/-! ## Pairs -/

theorem Arranged.farPointer?_of_readsTwo (h : i.Arranged) (hop : i.operation.readsTwo = true) :
    i.farPointer? = none := by
  rw [farPointer?, (h.destination hop).1]
  rfl

/-- Two operands are written in their order. -/
theorem written_of_readsTwo (hop : i.operation.readsTwo = true) {a b : Operand}
    (ha : i.operands.first = some a) (hb : i.operands.second = some b) :
    i.written = renderOperand i (some a) a :: renderOperand i (some a) b ::
      i.operands.third.toList.map (renderOperand i (some a)) := by
  have hwritten : i.writtenOperands = i.operands := by
    rw [writtenOperands]
    refine if_neg fun hlocked => ?_
    rw [Bool.and_eq_true, beq_iff_eq] at hlocked
    rw [hlocked.2] at hop
    cases hop
  rw [written, hwritten, Operands.toList, ha, hb]
  cases i.operands.third <;> rfl

/-- The size words show the width of a destination in memory, since no register stands in front. -/
theorem Arranged.sizeWords_of_memory (h : i.Arranged) (hop : i.operation.readsTwo = true)
    (place : MemoryOperand) : sizeWords i (some (.memory place)) =
      if i.modifiers.has .wide then "word " else "byte " := by
  unfold sizeWords
  rw [(h.destination hop).1]
  generalize i.operation = op at hop
  cases op <;> cases hop <;> rfl

/-- The text of an operation on two operands shows both of them and the width. -/
theorem Legible.pair_inj (hi : i.Legible) (hj : j.Legible) (hop : i.operation = j.operation)
    (hreads : i.operation.readsTwo = true) (h : i.rest = j.rest) :
    i.operands.first = j.operands.first ∧ i.operands.second = j.operands.second ∧
      Machine.width i i.operands.first = Machine.width j j.operands.first := by
  have hreads' := hop ▸ hreads
  obtain ⟨a, b, ha, hb, -, -⟩ := hi.shaped.pair hreads
  obtain ⟨a', b', ha', hb', -, -⟩ := hj.shaped.pair hreads'
  have htexts := written_inj (hi.arranged.farPointer?_of_readsTwo hreads)
    (hj.arranged.farPointer?_of_readsTwo hreads') h
  rw [written_of_readsTwo hreads ha hb, written_of_readsTwo hreads' ha' hb', List.cons.injEq,
    List.cons.injEq] at htexts
  obtain ⟨rfl, hsize⟩ := hi.operand_inj hj (Operands.mem_of_first ha)
    (Operands.mem_of_first ha') htexts.1
  obtain ⟨rfl, -⟩ := hi.operand_inj hj (Operands.mem_of_second hb)
    (Operands.mem_of_second hb') htexts.2.1
  refine ⟨ha.trans ha'.symm, hb.trans hb'.symm, ?_⟩
  rw [ha, ha']
  obtain ⟨-, x, hx, hstored⟩ := hi.arranged.destination hreads
  obtain rfl : a = x := Option.some.inj (ha.symm.trans hx)
  cases a with
  | register part => rfl
  | memory place =>
    have hwide := hsize place rfl
    rw [hi.arranged.sizeWords_of_memory hreads, hj.arranged.sizeWords_of_memory hreads'] at hwide
    unfold Machine.width
    revert hwide
    cases i.modifiers.has .wide <;> cases j.modifiers.has .wide <;> simp
  | immediate value => cases hstored
  | relative distance => cases hstored

/-! ## Operations -/

/-- An operation that is executed has its mnemonic to itself. -/
theorem operation_eq_of_word_eq (h : i.word = j.word) (hexecuted : i.operation.isExecuted = true) :
    i.operation = j.operation := by
  have hword : i.word = i.operation.mnemonic := by
    rw [word, Operation.word]
    generalize i.operation = op at hexecuted
    cases op <;> first | rfl | cases hexecuted
  have hnamed : i.operation ∈ Operation.named.filter Operation.isExecuted := by
    refine List.mem_filter.2 ⟨?_, hexecuted⟩
    rcases i.operation.mem_named_or_other with hmem | ⟨code, hcode⟩
    · exact hmem
    · rw [hcode] at hexecuted
      cases hexecuted
  exact ((j.operation.worded _).executed _ hnamed (h.symm.trans hword)).symm

end Instruction

theorem Operation.cases_of_isExecuted {op : Operation} (h : op.isExecuted = true) :
    op.readsTwo = true ∨ op.isShortJump = true ∨ op = jmp ∨ op = nop ∨ op = hlt := by
  cases op <;> cases h <;> decide

namespace Machine

/-- Two outcomes that cannot be told apart: the machines are the same, and either there is no error
or both errors have the same message. -/
inductive Outcome.Agrees : Outcome → Outcome → Prop
  | done (m : Machine) : Agrees (none, m) (none, m)
  | refused (m : Machine) {u v : Unsupported} (h : u.message = v.message) :
    Agrees (some (.unsupported u), m) (some (.unsupported v), m)

theorem Outcome.Agrees.refl {o : Outcome} (h : ∀ f, o.1 ≠ some (.fault f)) : o.Agrees o := by
  obtain ⟨failure, m⟩ := o
  cases failure with
  | none => exact .done m
  | some failure =>
    cases failure with
    | unsupported u => exact .refused m rfl
    | fault f => exact absurd rfl (h f)

variable {i j : Instruction} {m : Machine} {ip : UInt16}

theorem jump_congr (hop : i.operation = j.operation) (hfirst : i.operands.first = j.operands.first)
    (m : Machine) (ip : UInt16) (taken : Bool) : m.jump i ip taken = m.jump j ip taken := by
  rw [jump, jump, hop, hfirst]

/-- Of a short jump the machine looks at nothing but the distance. -/
theorem execute_congr_of_isShortJump (hop : i.operation = j.operation)
    (hjump : i.operation.isShortJump = true) (hfirst : i.operands.first = j.operands.first) :
    m.execute i ip = m.execute j ip := by
  rw [execute, execute, ← hop]
  generalize i.operation = op at hjump
  -- a loop is a jump of the machine that has counted
  cases op <;> cases hjump
  all_goals exact jump_congr hop hfirst _ ip _

theorem execute_of_not_isExecuted (h : i.operation.isExecuted = false) :
    m.execute i ip = m.refuse i (.operation i) := by
  rw [execute]
  generalize i.operation = op at h
  cases op <;> first | rfl | cases h

theorem refuse_agrees (hi : i.isRenderable = true) (hj : j.isRenderable = true)
    {u v : Unsupported} (h : u.message = v.message) :
    (m.refuse i u).Agrees (m.refuse j v) := by
  rw [refuse, refuse, if_pos hi, if_pos hj]
  exact .refused m h

theorem execute_of_nothing (h : i.operation = .nop ∨ i.operation = .hlt) :
    m.execute i ip = (none, m) := by
  rw [execute]
  rcases h with h | h <;> rw [h]

theorem execute_jmp_of_relative (hop : i.operation = .jmp) {d : Int32}
    (hd : i.operands.first = some (.relative d)) :
    m.execute i ip = (none, m.setIp (ip + d.toUInt32.toUInt16)) := by
  rw [execute, hop]
  dsimp only
  rw [hd]
  dsimp only
  rw [jump, if_pos rfl, hd]

theorem execute_jmp_of_not_relative (hop : i.operation = .jmp)
    (h : ¬∃ d, i.operands.first = some (.relative d)) :
    m.execute i ip = m.refuse i (.indirectJump i) := by
  rw [execute, hop]
  dsimp only
  split
  · rename_i d hd
    exact absurd ⟨d, hd⟩ h
  · rfl

/-- A `jmp` is refused unless it is by a distance, and the text shows distances. -/
theorem jmp_agrees (hi : i.Legible) (hj : j.Legible) (hop : i.operation = .jmp)
    (hop' : j.operation = .jmp) (hrest : i.rest = j.rest) (h : i.render = j.render) :
    (m.execute i ip).Agrees (m.execute j ip) := by
  by_cases hrelative : ∃ d, i.operands.first = some (.relative d)
  · obtain ⟨d, hd⟩ := hrelative
    rw [execute_jmp_of_relative hop hd,
      execute_jmp_of_relative hop' (hi.first_of_relative hj hrest hd)]
    exact .done _
  · have hrelative' : ¬∃ d, j.operands.first = some (.relative d) :=
      fun ⟨d, hd⟩ => hrelative ⟨d, hj.first_of_relative hi hrest.symm hd⟩
    rw [execute_jmp_of_not_relative hop hrelative, execute_jmp_of_not_relative hop' hrelative']
    exact refuse_agrees hi.shaped.isRenderable hj.shaped.isRenderable (congrArg
      ("unsupported instruction: only relative jumps are executed (" ++ · ++ ")") h)

/-- Machines see what texts show. -/
theorem execute_agrees (hi : i.Legible) (hj : j.Legible) (h : i.render = j.render) (m : Machine)
    (ip : UInt16) : (m.execute i ip).Agrees (m.execute j ip) := by
  obtain ⟨hword, hrest⟩ := Instruction.head_inj hi.arranged.marker hj.arranged.marker h
  cases hexecuted : i.operation.isExecuted with
  | false =>
    have hexecuted' : j.operation.isExecuted = false := by
      refine Bool.eq_false_iff.2 fun hj => ?_
      rw [← Instruction.operation_eq_of_word_eq hword.symm hj, hj] at hexecuted
      cases hexecuted
    rw [execute_of_not_isExecuted hexecuted, execute_of_not_isExecuted hexecuted']
    exact refuse_agrees hi.shaped.isRenderable hj.shaped.isRenderable
      (congrArg ("unsupported instruction: " ++ ·) h)
  | true =>
    have hop := Instruction.operation_eq_of_word_eq hword hexecuted
    have hagrees : m.execute i ip = m.execute j ip →
        (m.execute i ip).Agrees (m.execute j ip) :=
      fun heq => heq ▸ .refl (hi.shaped.execute_ne_fault m ip)
    rcases Operation.cases_of_isExecuted hexecuted with hreads | hshort | hjmp | hnothing
    · obtain ⟨hfirst, hsecond, hwidth⟩ := hi.pair_inj hj hop hreads hrest
      refine hagrees (execute_congr hop (hop ▸ hreads) hfirst rfl hwidth.symm (fun m => ?_) m ip)
      rw [hsecond]
      exact read_congr hop m _ _
    · obtain ⟨d, hd⟩ := hi.shaped.distance hshort
      exact hagrees (execute_congr_of_isShortJump hop hshort
        (hd.trans (hi.first_of_relative hj hrest hd).symm))
    · exact jmp_agrees hi hj hjmp (hop ▸ hjmp) hrest h
    · exact hagrees (by rw [execute_of_nothing hnothing, execute_of_nothing (hop ▸ hnothing)])

/-- **Instructions with the same text execute identically.**  Whatever images and cursors they were
decoded from and whatever was decoded before them, every machine does the same with them, down to
the message if it refuses them. -/
theorem execute_agrees_of_text_eq {calls calls' : List (Image × Cursor)} {image image' : Image}
    {cursor cursor' : Cursor} {x y : Decoded}
    (hx : decodeOne (Pending.clear.through calls) image cursor = .ok x)
    (hy : decodeOne (Pending.clear.through calls') image' cursor' = .ok y)
    (htext : x.instruction.text = y.instruction.text) (m : Machine) (ip : UInt16) :
    (m.execute x.instruction ip).Agrees (m.execute y.instruction ip) := by
  have hi := legible_of_decodeWithin (.through calls) hx
  have hj := legible_of_decodeWithin (.through calls') hy
  rw [Instruction.text, Instruction.text, if_pos hi.shaped.isRenderable,
    if_pos hj.shaped.isRenderable] at htext
  exact execute_agrees hi hj (Except.ok.inj htext) m ip

/-- `mov ax, [es:bx]` without a displacement behind one override, and with a displacement of zero
behind two of them. -/
theorem execute_mov_agrees :
    let image := Image.zero.setRange 0 [0x26, 0x8B, 0x07]
    let image' := Image.zero.setRange 0 [0x36, 0x26, 0x8B, 0x47, 0x00]
    ∃ x y, decodeOne (Pending.clear.through [(image, ⟨0, 0⟩)]) image ⟨0, 1⟩ = .ok x ∧
      decodeOne (Pending.clear.through [(image', ⟨0, 0⟩), (image', ⟨0, 1⟩)]) image' ⟨0, 2⟩ = .ok y ∧
      x.instruction.text = .ok "mov ax, [es:bx]" ∧ y.instruction.text = .ok "mov ax, [es:bx]" ∧
      x.instruction.size ≠ y.instruction.size ∧
      ∀ (m : Machine) (ip : UInt16),
        (m.execute x.instruction ip).Agrees (m.execute y.instruction ip) := by
  intro image image'
  let operands : Operands := ⟨some (.register (.whole .a)), some (.memory ⟨.es, .bx, 0⟩), none⟩
  let i : Instruction := ⟨1, 2, .mov, ⟨24⟩, operands⟩
  let j : Instruction := ⟨2, 3, .mov, ⟨24⟩, operands⟩
  have hdecoded :
      (decodeOne (Pending.clear.through [(image, ⟨0, 0⟩)]) image ⟨0, 1⟩).toOption =
        some ⟨i, ⟨0, 3⟩, .clear⟩ ∧
      (decodeOne (Pending.clear.through [(image', ⟨0, 0⟩), (image', ⟨0, 1⟩)])
        image' ⟨0, 2⟩).toOption = some ⟨j, ⟨0, 5⟩, .clear⟩ ∧
      i.render = "mov ax, [es:bx]" ∧ j.render = "mov ax, [es:bx]" := by
    decide +kernel
  obtain ⟨hx, hy, hi, hj⟩ := hdecoded
  rw [toOption_eq_some_iff] at hx hy
  have htext : i.text = .ok "mov ax, [es:bx]" ∧ j.text = .ok "mov ax, [es:bx]" :=
    ⟨(if_pos (by decide)).trans (congrArg Except.ok hi),
      (if_pos (by decide)).trans (congrArg Except.ok hj)⟩
  exact ⟨_, _, hx, hy, htext.1, htext.2, by decide,
    execute_agrees_of_text_eq hx hy (htext.1.trans htext.2.symm)⟩

end Machine

end I8086
