import I8086.Proofs.Contiguous
import I8086.Proofs.Orders
import I8086.Proofs.Unlabeled
import Mathlib.Data.List.Nodup

/-!
# Where labels lead

A label is the name of an address, and a jump that names it goes to that address.  Three loops over
the instructions have to agree for this: the one that finds where lines start, the one that collects
the targets of jumps, and the one that writes the lines.  Targets are numbers of 32 bits and the
machine has 16 of them, so the region has to stay within the first segment.

* `Labels.mentioned?` and `Labels.defined?` read the names of labels in lines.
* `Machine.takes` says when a jump is taken.
* `Labels.Sound` is what is expected of labels, and `Labels.write_sound` that the labels of a region
  live up to it.
-/

set_option autoImplicit false

namespace I8086

open Instruction Text

namespace Labels

/-! ## Names of labels -/

/-- The label that a jump is written with. -/
def mentioned? (line : String) : Option String :=
  if !isLabel line && isLabel (lastWord (uncomment line)) then some (lastWord (uncomment line))
  else none

/-- The label that a line of its own is for. -/
def defined? (line : String) : Option String :=
  if isLabel line then some (.ofList line.toList.dropLast) else none

theorem labelName_injective {a b : UInt32} (h : labelName a = labelName b) : a = b :=
  UInt32.toNat_inj.1 (decimal_injective ((String.append_right_inj "label__").1 h))

/-- The address of the label that the line of an instruction names. -/
def named? (labels : Std.HashSet UInt32) (i : Instruction) : Option UInt32 :=
  (target? i).filter labels.contains

theorem mentioned?_lineText (labels : Std.HashSet UInt32) (i : Instruction) :
    mentioned? (lineText labels i) = (named? labels i).map labelName := by
  rw [mentioned?, isLabel_lineText, uncomment_lineText, jumpText, named?]
  cases (target? i).filter labels.contains with
  | some target =>
    dsimp only
    rw [lastWord_append (lacks_labelName target ' ' (by simp)), isLabel_labelName]
    rfl
  | none =>
    have hlacks : '_' ∉ (lastWord i.render).toList := by
      rw [lastWord, String.toList_ofList]
      exact fun hmem => i.lacks_render '_' (by simp) ((List.rtakeWhile_suffix _ _).subset hmem)
    dsimp only
    rw [isLabel_of_lacks hlacks]
    rfl

theorem mentioned?_labelLine (address : UInt32) : mentioned? (labelName address ++ ":") = none := by
  rw [mentioned?, isLabel_labelLine]
  rfl

theorem defined?_labelLine (address : UInt32) :
    defined? (labelName address ++ ":") = some (labelName address) := by
  rw [defined?, if_pos (isLabel_labelLine address), String.toList_append,
    show ":".toList = [':'] from rfl, List.dropLast_concat, String.ofList_toList]

theorem defined?_lineText (labels : Std.HashSet UInt32) (i : Instruction) :
    defined? (lineText labels i) = none := by
  rw [defined?, isLabel_lineText]
  rfl

/-! ## Lines of groups -/

section Lines

variable {labels : Std.HashSet UInt32} {gs : List (List Instruction)}

/-- The labels that have a line are those of the groups. -/
theorem filterMap_defined? : (gs.flatMap (block labels)).filterMap defined? =
    ((gs.filterMap start?).filter labels.contains).map labelName := by
  induction gs with
  | nil => rfl
  | cons g gs ih =>
    have hblock : (block labels g).filterMap defined? =
        (((start? g).filter labels.contains).map labelName).toList := by
      rw [block, List.filterMap_append, labelLine?]
      cases (start? g).filter labels.contains <;> cases body? g <;>
        simp [defined?_labelLine, defined?_lineText]
    rw [List.flatMap_cons, List.filterMap_append, hblock, ih, List.filterMap_cons]
    cases start? g with
    | none => rfl
    | some a =>
      rw [Option.filter_some]
      dsimp only
      rw [List.filter_cons]
      split <;> rfl

/-- Lines are of two kinds. -/
theorem cases_of_mem_block {line : String} (h : line ∈ gs.flatMap (block labels)) :
    (∃ a, line = labelName a ++ ":") ∨ ∃ i, line = lineText labels i := by
  obtain ⟨g, -, hblock⟩ := List.mem_flatMap.1 h
  rw [block, List.mem_append] at hblock
  rcases hblock with hlabel | hbody
  · obtain ⟨a, -, -, hline⟩ := labelLine?_eq_some_iff.1 (Option.mem_toList.1 hlabel)
    exact .inl ⟨a, hline.symm⟩
  · obtain ⟨i, -, hline⟩ := Option.map_eq_some_iff.1 (Option.mem_toList.1 hbody)
    exact .inr ⟨i, hline.symm⟩

/-- The labels that occur in jumps are those of their targets. -/
theorem exists_of_mem_mentioned? {name : String}
    (h : name ∈ (gs.flatMap (block labels)).filterMap mentioned?) :
    ∃ i a, named? labels i = some a ∧ labelName a = name := by
  obtain ⟨line, hline, hname⟩ := List.mem_filterMap.1 h
  rcases cases_of_mem_block hline with ⟨a, rfl⟩ | ⟨i, rfl⟩
  · rw [mentioned?_labelLine] at hname
    cases hname
  · rw [mentioned?_lineText] at hname
    exact ⟨i, Option.map_eq_some_iff.1 hname⟩

/-- A line that looks like the line of a label is one. -/
theorem exists_of_isLabel {line : String} (hmem : line ∈ gs.flatMap (block labels))
    (h : isLabel line = true) : ∃ a, line = labelName a ++ ":" := by
  rcases cases_of_mem_block hmem with hlabel | ⟨i, rfl⟩
  · exact hlabel
  · rw [isLabel_lineText] at h
    cases h

/-- Only the first line of a group can be that of a label. -/
theorem block_eq_append {g : List Instruction} {a : UInt32} {before after : List String}
    (h : block labels g = before ++ (labelName a ++ ":") :: after) :
    before = [] ∧ start? g = some a ∧ labels.contains a = true ∧
      after = ((body? g).map (lineText labels)).toList := by
  have hline : labelName a ++ ":" ∉ ((body? g).map (lineText labels)).toList := by
    rw [Option.mem_toList, Option.map_eq_some_iff]
    rintro ⟨i, -, hi⟩
    have hlabel := isLabel_labelLine a
    rw [← hi, isLabel_lineText] at hlabel
    cases hlabel
  rw [block] at h
  cases hfirst : labelLine? labels g with
  | none =>
    rw [hfirst, Option.toList_none, List.nil_append] at h
    exact absurd (h ▸ by simp) hline
  | some line =>
    obtain ⟨b, hb, hcontains, rfl⟩ := labelLine?_eq_some_iff.1 hfirst
    rw [hfirst, Option.toList_some, List.singleton_append] at h
    cases before with
    | nil =>
      obtain ⟨hname, hafter⟩ := List.cons.inj h
      obtain rfl := labelName_injective ((String.append_left_inj ":").1 hname)
      exact ⟨rfl, hb, hcontains, hafter.symm⟩
    | cons first before => exact absurd ((List.cons.inj h).2 ▸ by simp) hline

/-- The line of a label is behind the lines of the groups before its own, and comes first among the
lines of its group. -/
theorem exists_of_append_labelLine {a : UInt32} {before after : List String}
    (h : gs.flatMap (block labels) = before ++ (labelName a ++ ":") :: after) :
    ∃ gs₁ g gs₂, gs = gs₁ ++ g :: gs₂ ∧ start? g = some a ∧ labels.contains a = true ∧
      before = gs₁.flatMap (block labels) ∧
      after = ((body? g).map (lineText labels)).toList ++ gs₂.flatMap (block labels) := by
  induction gs generalizing before with
  | nil => exact absurd h (by simp)
  | cons g gs ih =>
    rw [List.flatMap_cons, List.append_eq_append_iff] at h
    rcases h with ⟨before', rfl, hrest⟩ | ⟨mine, hblock, hrest⟩
    · obtain ⟨gs₁, g', gs₂, rfl, hstart, hcontains, rfl, hafter⟩ := ih hrest
      exact ⟨g :: gs₁, g', gs₂, rfl, hstart, hcontains, List.flatMap_cons.symm, hafter⟩
    · cases mine with
      | nil =>
        have hfront : gs.flatMap (block labels) = [] ++ (labelName a ++ ":") :: after := hrest.symm
        obtain ⟨gs₁, g', gs₂, rfl, hstart, hcontains, hbefore, hafter⟩ := ih hfront
        refine ⟨g :: gs₁, g', gs₂, rfl, hstart, hcontains, ?_, hafter⟩
        rw [List.flatMap_cons, ← hbefore, hblock, List.append_nil, List.append_nil]
      | cons line mine =>
        obtain ⟨rfl, rfl⟩ := List.cons.inj hrest
        obtain ⟨rfl, hstart, hcontains, rfl⟩ := block_eq_append hblock
        exact ⟨[], g, gs, rfl, hstart, hcontains, rfl, rfl⟩

end Lines

end Labels

/-! ## Jumps -/

namespace Machine

/-- Whether an operation jumps, given what the machine holds before it. -/
def takes (m : Machine) : Operation → Bool
  | .jmp => true
  | .jcxz => m.registers.word .c == 0
  | .loop => m.registers.word .c - 1 != 0
  | .loopz => m.registers.word .c - 1 != 0 && m.registers.hasFlag Flags.zero
  | .loopnz => m.registers.word .c - 1 != 0 && !m.registers.hasFlag Flags.zero
  | op => (op.condition? m.registers.flags).getD false

/-- A jump that is taken goes by its distance. -/
theorem execute_of_takes {m : Machine} {i : Instruction} {d : Int32} {ip : UInt16}
    (hd : i.operands.first = some (.relative d)) (h : m.takes i.operation = true) :
    (m.execute i ip).1 = none ∧ (m.execute i ip).2.ip = ip + d.toUInt32.toUInt16 := by
  have hjump : ∀ (m : Machine) (taken : Bool), taken = true → (m.jump i ip taken).1 = none ∧
      (m.jump i ip taken).2.ip = ip + d.toUInt32.toUInt16 := by
    rintro m _ rfl
    rw [jump, if_pos rfl, hd]
    exact ⟨rfl, Registers.word_setWord_self m.registers (x := .ip) rfl _⟩
  rw [takes.eq_def] at h
  split at h
  · rename_i hop
    rw [execute_jmp_of_relative hop hd]
    exact ⟨rfl, Registers.word_setWord_self m.registers (x := .ip) rfl _⟩
  · rename_i hop
    rw [execute, hop]
    exact hjump m _ h
  · rename_i hop
    rw [execute, hop]
    exact hjump _ _ ((Bool.and_true _).trans h)
  · rename_i hop
    rw [execute, hop]
    exact hjump _ _ h
  · rename_i hop
    rw [execute, hop]
    exact hjump _ _ h
  · obtain ⟨taken, hcondition, htaken⟩ : ∃ taken,
        i.operation.condition? m.registers.flags = some taken ∧ taken = true := by
      cases hcondition : i.operation.condition? m.registers.flags with
      | none =>
        rw [hcondition] at h
        cases h
      | some taken =>
        rw [hcondition] at h
        exact ⟨taken, rfl, h⟩
    rw [execute_of_condition? hcondition]
    exact hjump m taken htaken

end Machine

namespace Labels

/-! ## Targets -/

/-- Within the first segment, a target is the sum of two numbers. -/
theorem target_eq_iff {a t : UInt32} {d : Int32} (ha : a.toNat < 65536) (ht : t.toNat < 65536) :
    a + d.toUInt32 = t ↔ (a.toNat : Int) + d.toInt = t.toNat := by
  have hd : d.toInt = if 2 * d.toUInt32.toNat < 4294967296 then (d.toUInt32.toNat : Int)
      else d.toUInt32.toNat - 4294967296 := BitVec.toInt_eq_toNat_cond d.toBitVec
  have hlt := d.toUInt32.toNat_lt
  rw [← UInt32.toNat_inj, UInt32.toNat_add, hd]
  split <;> omega

/-- What is expected of the lines of instructions: apart from labels, which are names of addresses,
they are the lines of the instructions in order; every label in a jump has one line of its own; the
line of a label is in front of the line of the group at its address, and behind the lines of the
groups before that one; some jump leads to every label; a jump that is taken goes to the address of
its label; and a jump to any other place shows its distance. -/
structure Sound (instructions : List Instruction) (lines : List String) : Prop where
  listed : (lines.filter fun text => !isLabel text).map .ok =
    (instructions.filter fun i => !i.isPrefix).map (line (labels instructions))
  addressed : ∀ text ∈ lines, isLabel text = true → ∃ address, text = labelName address ++ ":"
  defined : ∀ name ∈ lines.filterMap mentioned?,
    ∃ address, name = labelName address ∧ (lines.filterMap defined?).count name = 1
  placed : ∀ before address after, lines = before ++ (labelName address ++ ":") :: after →
    ∃ gs₁ g gs₂, groups instructions = gs₁ ++ g :: gs₂ ∧ start? g = some address ∧
      (before.filter fun text => !isLabel text).map .ok =
        (gs₁.filterMap body?).map (line (labels instructions)) ∧
      ((∃ i text rest, body? g = some i ∧ line (labels instructions) i = .ok text ∧
          after = text :: rest) ∨
        (body? g = none ∧ gs₂ = [] ∧ after = []))
  referenced : ∀ address, labelName address ++ ":" ∈ lines → ∃ i ∈ instructions, ∃ d text,
    i.operands.first = some (.relative d) ∧ i.operation.jumps = true ∧
      (i.address.toNat : Int) + d.toInt = address.toNat ∧
      line (labels instructions) i = .ok text ∧ text ∈ lines ∧
      mentioned? text = some (labelName address)
  taken : ∀ i ∈ instructions, ∀ text address, line (labels instructions) i = .ok text →
    mentioned? text = some (labelName address) → i.address.toUInt16.toNat = i.address.toNat ∧
      ∀ m : Machine, m.takes i.operation = true → (m.execute i i.address.toUInt16).1 = none ∧
        (m.execute i i.address.toUInt16).2.ip.toNat = address.toNat
  elsewhere : ∀ i ∈ instructions, ∀ d, i.operands.first = some (.relative d) →
    (∀ g ∈ groups instructions, ∀ address, start? g = some address →
      (i.address.toNat : Int) + d.toInt ≠ address.toNat) →
    ∃ text front, line (labels instructions) i = .ok text ∧ text ∈ lines ∧
      uncomment text = front ++ " $" ++ plusSigned d.toInt

/-- Instructions that were decoded from the first segment, and from no place twice. -/
structure Nearby (instructions : List Instruction) : Prop where
  legible : ∀ i ∈ instructions, i.Legible
  bound : ∀ i ∈ instructions, i.address.toNat < 65536
  nodup : ((groups instructions).filterMap start?).Nodup

variable {instructions : List Instruction}

/-- The line of an instruction that is not a prefix is one of the lines. -/
theorem lineText_mem {i : Instruction} (hi : i ∈ instructions) (hp : i.isPrefix = false)
    (labels : Std.HashSet UInt32) :
    lineText labels i ∈ (groups instructions).flatMap (block labels) := by
  refine List.mem_of_mem_filter (p := fun line => !isLabel line) ?_
  rw [filter_lines]
  exact List.mem_map_of_mem (List.mem_filter.2 ⟨hi, by rw [hp]; rfl⟩)

theorem named?_eq_some_iff {labels : Std.HashSet UInt32} {i : Instruction} {address : UInt32} :
    named? labels i = some address ↔
      target? i = some address ∧ labels.contains address = true :=
  Option.filter_eq_some_iff

/-- There is no label without a jump to it. -/
theorem exists_named?_of_labelLine {address : UInt32}
    (hmem : labelName address ++ ":" ∈
      (groups instructions).flatMap (block (labels instructions))) :
    ∃ i ∈ instructions, named? (labels instructions) i = some address := by
  have hname := List.mem_filterMap.2 ⟨_, hmem, defined?_labelLine address⟩
  rw [filterMap_defined?, List.mem_map] at hname
  obtain ⟨a, ha, hsame⟩ := hname
  obtain rfl := labelName_injective hsame
  have hcontains := (List.mem_filter.1 ha).2
  obtain ⟨-, i, hi, htarget⟩ := contains_labels_iff.1 hcontains
  exact ⟨i, hi, named?_eq_some_iff.2 ⟨htarget, hcontains⟩⟩

namespace Nearby

variable (h : Nearby instructions)

include h

theorem line_eq {i : Instruction} (hi : i ∈ instructions) :
    line (labels instructions) i = .ok (lineText (labels instructions) i) :=
  Labels.line_eq (h.legible i hi).shaped.isRenderable _

theorem bound_start {address : UInt32} (ha : address ∈ (groups instructions).filterMap start?) :
    address.toNat < 65536 := by
  obtain ⟨i, hi, rfl⟩ := List.mem_map.1 ((sublist_starts instructions).subset ha)
  exact h.bound i hi

/-- A label that is named is the sum of address and distance. -/
theorem of_named? {i : Instruction} (hi : i ∈ instructions) {address : UInt32}
    (hname : named? (labels instructions) i = some address) : ∃ d,
      i.operands.first = some (.relative d) ∧ i.operation.jumps = true ∧ address.toNat < 65536 ∧
        (i.address.toNat : Int) + d.toInt = address.toNat := by
  obtain ⟨htarget, hcontains⟩ := named?_eq_some_iff.1 hname
  obtain ⟨d, hd, hsum⟩ := target?_eq_some_iff.1 htarget
  have hbound := h.bound_start (contains_labels_iff.1 hcontains).1
  exact ⟨d, hd, ((h.legible i hi).of_relative hd).2, hbound,
    (target_eq_iff (h.bound i hi) hbound).1 hsum⟩

theorem defined {name : String}
    (hname : name ∈ ((groups instructions).flatMap (block (labels instructions))).filterMap
      mentioned?) :
    ∃ address, name = labelName address ∧
      (((groups instructions).flatMap (block (labels instructions))).filterMap defined?).count
        name = 1 := by
  obtain ⟨i, a, ha, rfl⟩ := exists_of_mem_mentioned? hname
  have hcontains := (named?_eq_some_iff.1 ha).2
  refine ⟨a, rfl, ?_⟩
  rw [filterMap_defined?]
  exact List.count_eq_one_of_mem ((h.nodup.filter _).map fun _ _ => labelName_injective)
    (List.mem_map_of_mem (List.mem_filter.2 ⟨(contains_labels_iff.1 hcontains).1, hcontains⟩))

/-- Lines of instructions are their lines in the listing. -/
theorem map_lineText {is : List Instruction} (his : ∀ i ∈ is, i ∈ instructions) :
    (is.map (lineText (labels instructions))).map .ok = is.map (line (labels instructions)) := by
  rw [List.map_map]
  exact List.map_congr_left fun i hi => (h.line_eq (his i hi)).symm

theorem placed {before after : List String} {address : UInt32}
    (hlines : (groups instructions).flatMap (block (labels instructions)) =
      before ++ (labelName address ++ ":") :: after) :
    ∃ gs₁ g gs₂, groups instructions = gs₁ ++ g :: gs₂ ∧ start? g = some address ∧
      (before.filter fun text => !isLabel text).map .ok =
        (gs₁.filterMap body?).map (line (labels instructions)) ∧
      ((∃ i text rest, body? g = some i ∧ line (labels instructions) i = .ok text ∧
          after = text :: rest) ∨
        (body? g = none ∧ gs₂ = [] ∧ after = [])) := by
  obtain ⟨gs₁, g, gs₂, hgs, hstart, -, rfl, rfl⟩ := exists_of_append_labelLine hlines
  have hmem : ∀ g' ∈ gs₁ ++ [g], ∀ i, body? g' = some i → i ∈ instructions := by
    intro g' hg' i hi
    refine mem_of_body? (hgs ▸ ?_) hi
    rw [List.append_cons]
    exact List.mem_append_left gs₂ hg'
  refine ⟨gs₁, g, gs₂, hgs, hstart, ?_, ?_⟩
  · rw [filter_flatMap_block]
    refine h.map_lineText fun i hi => ?_
    obtain ⟨g', hg', hbody⟩ := List.mem_filterMap.1 hi
    exact hmem g' (List.mem_append_left _ hg') i hbody
  · cases hbody : body? g with
    | some i => exact .inl ⟨i, _, _, rfl, h.line_eq (hmem g (by simp) i hbody), rfl⟩
    | none =>
      obtain rfl := eq_nil_of_body?_eq_none hgs hbody
      exact .inr ⟨rfl, rfl, rfl⟩

/-- A jump that is taken goes to the address of its label. -/
theorem ip_of_takes {i : Instruction} (hi : i ∈ instructions) {address : UInt32}
    (hname : named? (labels instructions) i = some address) {m : Machine}
    (htakes : m.takes i.operation = true) :
    (m.execute i i.address.toUInt16).1 = none ∧
      (m.execute i i.address.toUInt16).2.ip.toNat = address.toNat := by
  obtain ⟨d, hd, -, hbound, -⟩ := h.of_named? hi hname
  obtain ⟨d', hd', rfl⟩ := target?_eq_some_iff.1 (named?_eq_some_iff.1 hname).1
  have hexecute : (m.execute i i.address.toUInt16).1 = none ∧
      (m.execute i i.address.toUInt16).2.ip = i.address.toUInt16 + d'.toUInt32.toUInt16 :=
    Machine.execute_of_takes hd' htakes
  refine ⟨hexecute.1, ?_⟩
  rw [UInt32.toNat_add] at hbound ⊢
  rw [hexecute.2, UInt16.toNat_add, UInt32.toNat_toUInt16, UInt32.toNat_toUInt16]
  omega

theorem named?_eq_none {i : Instruction} (hi : i ∈ instructions) {d : Int32}
    (hd : i.operands.first = some (.relative d))
    (hnone : ∀ g ∈ groups instructions, ∀ address, start? g = some address →
      (i.address.toNat : Int) + d.toInt ≠ address.toNat) :
    named? (labels instructions) i = none := by
  rw [Option.eq_none_iff_forall_ne_some]
  intro address hname
  obtain ⟨d', hd', -, -, hsum⟩ := h.of_named? hi hname
  obtain rfl : d' = d := by
    rw [hd] at hd'
    cases hd'
    rfl
  obtain ⟨g, hg, hstart⟩ :=
    List.mem_filterMap.1 (contains_labels_iff.1 (named?_eq_some_iff.1 hname).2).1
  exact hnone g hg address hstart hsum

/-- The labels of instructions from the first segment are sound. -/
theorem sound :
    Sound instructions ((groups instructions).flatMap (block (labels instructions))) := by
  refine ⟨?_, fun _ => exists_of_isLabel, fun _ => h.defined, fun _ _ _ => h.placed, ?_, ?_, ?_⟩
  · rw [filter_lines]
    exact h.map_lineText fun i hi => (List.mem_filter.1 hi).1
  · intro address hmem
    obtain ⟨i, hi, hname⟩ := exists_named?_of_labelLine hmem
    obtain ⟨d, hd, hjumps, -, hsum⟩ := h.of_named? hi hname
    have hprefixed := isPrefix_of_target (h.legible i hi) (named?_eq_some_iff.1 hname).1
    refine ⟨i, hi, d, _, hd, hjumps, hsum, h.line_eq hi, lineText_mem hi hprefixed _, ?_⟩
    rw [mentioned?_lineText, hname]
    rfl
  · intro i hi text address htext hmentioned
    cases (h.line_eq hi).symm.trans htext
    rw [mentioned?_lineText] at hmentioned
    obtain ⟨a, hname, hsame⟩ := Option.map_eq_some_iff.1 hmentioned
    obtain rfl := labelName_injective hsame
    refine ⟨?_, fun m => h.ip_of_takes hi hname⟩
    rw [UInt32.toNat_toUInt16]
    exact Nat.mod_eq_of_lt (h.bound i hi)
  · intro i hi d hd hnone
    have hprefixed := isPrefix_of_target (h.legible i hi) (target?_eq_some_iff.2 ⟨d, hd, rfl⟩)
    have hname := h.named?_eq_none hi hd hnone
    refine ⟨_, .ofList (spaced i.prefixes) ++ i.operation.mnemonic, h.line_eq hi,
      lineText_mem hi hprefixed _, ?_⟩
    rw [uncomment_lineText, jumpText, ← named?, hname]
    dsimp only
    rw [(h.legible i hi).render_of_relative hd]
    simp only [String.append_assoc]

end Nearby

theorem nearby_after (image : Image) {offset : UInt16} {count : UInt32}
    (h : offset.toNat + count.toNat ≤ 65536) (calls : List Decoder.Call) :
    Nearby ((Decoder.new image ⟨0, offset⟩ count).after calls).decoded.toList := by
  have htracks := Decoder.tracks_after image ⟨0, offset⟩ count calls
  have hcontiguous : Contiguous (Cursor.number ⟨0, offset⟩)
      ((Decoder.new image ⟨0, offset⟩ count).after calls).decoded.toList :=
    Decoder.contiguous_after h calls
  have htotal : total ((Decoder.new image ⟨0, offset⟩ count).after calls).decoded.toList ≤
      count.toNat := Nat.le_trans (Nat.le_of_eq htracks.sum_sizes) htracks.pos_le
  have hnumber : Cursor.number ⟨0, offset⟩ = offset.toNat := by
    rw [Cursor.number, UInt16.toNat_zero, Nat.zero_mul, Nat.zero_add]
  rw [hnumber] at hcontiguous
  have hend : offset.toNat + total ((Decoder.new image ⟨0, offset⟩ count).after
      calls).decoded.toList ≤ imageSize := by
    rw [imageSize]
    omega
  refine ⟨fun i => Decoder.legible_of_mem_after, fun i hi => ?_, hcontiguous.nodup_starts hend⟩
  have hbound := (hcontiguous.bounds hend i hi).2
  omega

/-- **Labels lead where they say.**  The labels of a region in the first segment are sound, also if
decoding stops before its end. -/
theorem write_sound (image : Image) {offset : UInt16} {count : UInt32}
    (h : offset.toNat + count.toNat ≤ 65536) (calls : List Decoder.Call) :
    let instructions := ((Decoder.new image ⟨0, offset⟩ count).after calls).decoded.toList
    ∃ lines : List String,
      write .unlimited instructions = (none, ⟨(lines.map (· ++ "\n")).toArray, none⟩) ∧
      Sound instructions lines := by
  intro instructions
  have hnearby : Nearby instructions := nearby_after image h calls
  exact ⟨_, write_unlimited fun i hi => (hnearby.legible i hi).shaped.isRenderable, hnearby.sound⟩

/-- A label for `lock nop`, a label for prefixes at the end, and a jump in between the prefixes. -/
theorem write_sound_of_prefixes :
    let image := Image.zero.setRange 16 [0xF0, 0x90, 0xEB, 0xFC, 0x74, 0x02, 0x75, 0x01, 0xF0, 0xF0]
    let instructions :=
      ((Decoder.new image ⟨0, 16⟩ 10).after (List.replicate 7 .next)).decoded.toList
    (16 : UInt16).toNat + (10 : UInt32).toNat ≤ 65536 ∧
      (∃ i ∈ instructions, named? (labels instructions) i = some 16) ∧
      (∃ i ∈ instructions, named? (labels instructions) i = some 24) ∧
      (∃ i ∈ instructions, target? i = some 25 ∧ named? (labels instructions) i = none) ∧
      ∃ lines : List String,
        write .unlimited instructions = (none, ⟨(lines.map (· ++ "\n")).toArray, none⟩) ∧
        Sound instructions lines := by
  intro image instructions
  have hdecoded : instructions.filterMap target? = [16, 24, 25] ∧
      (groups instructions).filterMap start? = [16, 18, 20, 22, 24] := by
    decide +kernel
  have hsound : ∃ lines : List String,
      write .unlimited instructions = (none, ⟨(lines.map (· ++ "\n")).toArray, none⟩) ∧
      Sound instructions lines := write_sound image (by decide) _
  obtain ⟨htargets, hstarts⟩ := hdecoded
  clear_value instructions
  have htarget : ∀ a ∈ [16, 24, (25 : UInt32)], ∃ i ∈ instructions, target? i = some a :=
    fun a ha => List.mem_filterMap.1 (htargets ▸ ha)
  have hnamed : ∀ a ∈ [16, 24, (25 : UInt32)], a ∈ [16, 18, 20, 22, (24 : UInt32)] →
      ∃ i ∈ instructions, named? (labels instructions) i = some a := by
    intro a ha hstart
    obtain ⟨i, hi, h⟩ := htarget a ha
    exact ⟨i, hi, named?_eq_some_iff.2
      ⟨h, contains_labels_iff.2 ⟨hstarts ▸ hstart, htarget a ha⟩⟩⟩
  obtain ⟨j, hj, hjump⟩ := htarget 25 (by simp)
  refine ⟨by decide, hnamed 16 (by simp) (by simp), hnamed 24 (by simp) (by simp),
    ⟨j, hj, hjump, ?_⟩, hsound⟩
  rw [Option.eq_none_iff_forall_ne_some]
  intro a ha
  obtain ⟨h, hcontains⟩ := named?_eq_some_iff.1 ha
  cases hjump.symm.trans h
  have hmem := (contains_labels_iff.1 hcontains).1
  rw [hstarts] at hmem
  exact absurd hmem (by decide)

end Labels
end I8086
