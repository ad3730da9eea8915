import I8086.Listing.Labels
import I8086.Proofs.Legible
import I8086.Proofs.Stream
import Mathlib.Data.List.SplitBy

/-!
# Instructions and the prefixes in front of them

A listing has a line for every instruction, and the prefixes in front of it are on that line.  So
it is a listing of groups: a run of prefixes and the instruction behind it, or the prefixes alone
where the instructions end.  The loops of both kinds of listing look at one instruction at a time,
and remember whether a prefix came before it.

* `Instruction.groups` are the groups, and `Instruction.groups_induction` the induction over them.
* `Labels.startsFrom_eq`, `Labels.linesFrom_eq` and `Listing.lines_eq` are the three loops, group by
  group.
* `Output.writeLines_eq_ok` is what is written if nothing goes wrong, and `Labels.write_unlimited`
  what is written with labels if nothing can.
* `Decoder.legible_of_mem_after` says that listings are made for instructions that have a text.
-/

set_option autoImplicit false

namespace I8086

/-! ## Groups -/

namespace Instruction

/-- The instructions of a list, each together with the run of prefixes in front of it.  Prefixes
with no instruction behind them are the last group. -/
def groups (instructions : List Instruction) : List (List Instruction) :=
  instructions.splitBy fun i _ => i.isPrefix

/-- The address of the first byte of a group. -/
def start? (group : List Instruction) : Option UInt32 := group.head?.map address

/-- The instruction of a group, which prefixes alone do not have. -/
def body? (group : List Instruction) : Option Instruction :=
  group.getLast?.filter fun i => !i.isPrefix

variable {ps : List Instruction} {i : Instruction}

theorem groups_of_prefixes (h : ∀ p ∈ ps, p.isPrefix = true) :
    groups ps = if ps = [] then [] else [ps] := by
  split
  · rename_i hnil
    rw [hnil]
    rfl
  · rename_i hne
    refine List.splitBy_of_isChain hne (List.isChain_iff_getElem.2 fun k hk => ?_)
    exact h _ (List.getElem_mem _)

theorem groups_append_cons (h : ∀ p ∈ ps, p.isPrefix = true) (hi : i.isPrefix = false)
    (rest : List Instruction) : groups (ps ++ i :: rest) = (ps ++ [i]) :: groups rest := by
  have hone : groups (ps ++ [i]) = [ps ++ [i]] := by
    refine List.splitBy_of_isChain (by simp) (List.isChain_append.2 ⟨?_, .singleton i, ?_⟩)
    · exact List.isChain_iff_getElem.2 fun k hk => h _ (List.getElem_mem _)
    · intro p hp
      exact fun _ _ => h p (List.mem_of_getLast? hp)
  rw [show ps ++ i :: rest = (ps ++ [i]) ++ rest by simp, groups, List.splitBy_append]
  · exact congrArg (· ++ groups rest) hone
  · intro x hx _ _
    obtain rfl : i = x := by simpa using hx
    exact hi

/-- Whatever holds of prefixes alone and is kept by putting a group in front holds of all lists. -/
theorem groups_induction {motive : List Instruction → Prop}
    (prefixes : ∀ ps, (∀ p ∈ ps, p.isPrefix = true) → motive ps)
    (group : ∀ ps i rest, (∀ p ∈ ps, p.isPrefix = true) → i.isPrefix = false → motive rest →
      motive (ps ++ i :: rest)) (instructions : List Instruction) : motive instructions := by
  have h : ∀ ps, (∀ p ∈ ps, p.isPrefix = true) → motive (ps ++ instructions) := by
    induction instructions with
    | nil =>
      intro ps hps
      rw [List.append_nil]
      exact prefixes ps hps
    | cons i rest ih =>
      intro ps hps
      cases hi : i.isPrefix with
      | false => exact group ps i rest hps hi (ih [] (by simp))
      | true =>
        rw [show ps ++ i :: rest = (ps ++ [i]) ++ rest by simp]
        exact ih (ps ++ [i]) fun p hp => (List.mem_append.1 hp).elim (hps p)
          fun hp => List.mem_singleton.1 hp ▸ hi
  exact h [] (by simp)

theorem body?_of_prefixes (h : ∀ p ∈ ps, p.isPrefix = true) : body? ps = none := by
  rw [body?, Option.filter_eq_none_iff]
  intro p hp
  rw [h p (List.mem_of_getLast? hp)]
  exact Bool.false_ne_true

theorem body?_append (hi : i.isPrefix = false) (ps : List Instruction) :
    body? (ps ++ [i]) = some i := by
  rw [body?, List.getLast?_concat, Option.filter_some, hi]
  rfl

/-- The instructions of the groups are those that are not prefixes. -/
theorem filterMap_body?_groups (instructions : List Instruction) :
    (groups instructions).filterMap body? = instructions.filter fun i => !i.isPrefix := by
  have hnone : ∀ ps : List Instruction, (∀ p ∈ ps, p.isPrefix = true) →
      ps.filter (fun i => !i.isPrefix) = [] := by
    intro ps h
    rw [List.filter_eq_nil_iff]
    intro p hp
    rw [h p hp]
    exact Bool.false_ne_true
  induction instructions using groups_induction with
  | prefixes ps h =>
    rw [groups_of_prefixes h, hnone ps h]
    split
    · rfl
    · rw [List.filterMap_cons, body?_of_prefixes h]
      rfl
  | group ps i rest h hi ih =>
    rw [groups_append_cons h hi, List.filterMap_cons, body?_append hi, ih, List.filter_append,
      hnone ps h, List.nil_append, List.filter_cons, hi]
    rfl

theorem mem_of_body? {instructions g : List Instruction} (hg : g ∈ groups instructions)
    (h : body? g = some i) : i ∈ instructions := by
  have hmem := List.mem_filterMap.2 ⟨g, hg, h⟩
  rw [filterMap_body?_groups] at hmem
  exact (List.mem_filter.1 hmem).1

/-- Prefixes without an instruction are at the end. -/
theorem eq_nil_of_body?_eq_none {instructions g : List Instruction}
    {gs₁ gs₂ : List (List Instruction)} (h : groups instructions = gs₁ ++ g :: gs₂) (hg : body? g = none) :
    gs₂ = [] := by
  induction instructions using groups_induction generalizing gs₁ with
  | prefixes ps hps =>
    rw [groups_of_prefixes hps] at h
    split at h
    · exact absurd h (by simp)
    · cases gs₁ with
      | nil => exact (List.cons.inj h).2.symm
      | cons first gs₁ => exact absurd (List.cons.inj h).2 (by simp)
  | group ps i rest hps hi ih =>
    rw [groups_append_cons hps hi] at h
    cases gs₁ with
    | nil =>
      obtain ⟨rfl, -⟩ := List.cons.inj h
      rw [body?_append hi] at hg
      cases hg
    | cons first gs₁ => exact ih (List.cons.inj h).2

/-- The addresses of the groups are some of the addresses. -/
theorem sublist_starts (instructions : List Instruction) :
    ((groups instructions).filterMap start?).Sublist (instructions.map address) := by
  induction instructions using groups_induction with
  | prefixes ps h =>
    rw [groups_of_prefixes h]
    cases ps with
    | nil => exact .slnil
    | cons p ps => exact (List.nil_sublist _).cons_cons _
  | group ps i rest h hi ih =>
    rw [groups_append_cons h hi, List.filterMap_cons]
    cases ps with
    | nil => exact ih.cons_cons _
    | cons p ps =>
      refine List.Sublist.cons_cons _ (ih.trans (List.Sublist.map _ ?_))
      exact (List.sublist_cons_self i rest).trans (List.sublist_append_right ps (i :: rest))

end Instruction

open Instruction

/-! ## Listings with labels -/

namespace Labels

/-- Behind a prefix nothing starts before the instruction has come. -/
theorem startsFrom_true {ps : List Instruction} (h : ∀ p ∈ ps, p.isPrefix = true) :
    startsFrom true ps = [] ∧ ∀ i rest, i.isPrefix = false →
      startsFrom true (ps ++ i :: rest) = startsFrom false rest := by
  induction ps with
  | nil =>
    refine ⟨rfl, fun i rest hi => ?_⟩
    rw [List.nil_append, startsFrom, if_pos rfl, hi]
  | cons p ps ih =>
    rw [List.forall_mem_cons] at h
    obtain ⟨hnone, hsome⟩ := ih h.2
    refine ⟨?_, fun i rest hi => ?_⟩
    · rw [startsFrom, if_pos rfl, h.1, hnone]
    · rw [List.cons_append, startsFrom, if_pos rfl, h.1, hsome i rest hi]

/-- A line starts where a group starts. -/
theorem startsFrom_eq (instructions : List Instruction) :
    startsFrom false instructions = (groups instructions).filterMap start? := by
  induction instructions using groups_induction with
  | prefixes ps h =>
    rw [groups_of_prefixes h]
    cases ps with
    | nil => rfl
    | cons p ps =>
      rw [List.forall_mem_cons] at h
      rw [startsFrom, if_neg Bool.false_ne_true, h.1, (startsFrom_true h.2).1]
      rfl
  | group ps i rest h hi ih =>
    rw [groups_append_cons h hi, List.filterMap_cons, ← ih]
    cases ps with
    | nil =>
      rw [List.nil_append, startsFrom, if_neg Bool.false_ne_true, hi]
      rfl
    | cons p ps =>
      rw [List.forall_mem_cons] at h
      rw [List.cons_append, startsFrom, if_neg Bool.false_ne_true, h.1,
        (startsFrom_true h.2).2 i rest hi]
      rfl

/-- The addresses with a label are those of groups to which some instruction jumps. -/
theorem contains_labels_iff {instructions : List Instruction} {address : UInt32} :
    (labels instructions).contains address = true ↔
      address ∈ (groups instructions).filterMap start? ∧
        ∃ i ∈ instructions, target? i = some address := by
  rw [labels, Std.HashSet.contains_ofList, List.contains_iff_mem, List.mem_filter,
    Std.HashSet.contains_ofList, List.contains_iff_mem, startsFrom_eq, List.mem_filterMap]
  exact and_comm

/-- The text of a line, for instructions that have one. -/
def lineText (labels : Std.HashSet UInt32) (i : Instruction) : String :=
  match target? i with
  | none => i.render
  | some target =>
    let jump :=
      if labels.contains target then i.operation.mnemonic ++ " " ++ labelName target else i.render
    match alternativeName? i.operation with
    | some name => jump ++ " ; " ++ name
    | none => jump

theorem line_eq {i : Instruction} (h : i.isRenderable = true) (labels : Std.HashSet UInt32) :
    line labels i = .ok (lineText labels i) := by
  rw [line, text, if_pos h]
  rfl

/-- The line with the label of a group, if it has one. -/
def labelLine? (labels : Std.HashSet UInt32) (group : List Instruction) : Option String :=
  ((start? group).filter labels.contains).map fun a => labelName a ++ ":"

/-- The lines of a group. -/
def block (labels : Std.HashSet UInt32) (group : List Instruction) : List String :=
  (labelLine? labels group).toList ++ ((body? group).map (lineText labels)).toList

section Lines

variable {labels : Std.HashSet UInt32}

theorem labelLine?_eq_some_iff {g : List Instruction} {line : String} :
    labelLine? labels g = some line ↔
      ∃ a, start? g = some a ∧ labels.contains a = true ∧ labelName a ++ ":" = line := by
  simp only [labelLine?, Option.map_eq_some_iff, Option.filter_eq_some_iff, and_assoc]

theorem linesFrom_true {ps : List Instruction} (h : ∀ p ∈ ps, p.isPrefix = true) :
    linesFrom labels true ps = [] ∧ ∀ i rest, i.isPrefix = false →
      linesFrom labels true (ps ++ i :: rest) =
        line labels i :: linesFrom labels false rest := by
  induction ps with
  | nil =>
    refine ⟨rfl, fun i rest hi => ?_⟩
    rw [List.nil_append, linesFrom, hi, Bool.not_true, Bool.and_false]
    rfl
  | cons p ps ih =>
    rw [List.forall_mem_cons] at h
    obtain ⟨hnone, hsome⟩ := ih h.2
    refine ⟨?_, fun i rest hi => ?_⟩
    · rw [linesFrom, h.1, hnone, Bool.not_true, Bool.and_false]
      rfl
    · rw [List.cons_append, linesFrom, h.1, hsome i rest hi, Bool.not_true, Bool.and_false]
      rfl

/-- The first instruction of a group brings the label of the group. -/
theorem linesFrom_false (i : Instruction) (group rest : List Instruction) :
    linesFrom labels false (i :: rest) =
      (labelLine? labels (i :: group)).toList.map .ok ++
        (if i.isPrefix then [] else [line labels i]) ++ linesFrom labels i.isPrefix rest := by
  rw [linesFrom, labelLine?, start?, List.head?_cons, Option.map_some, Option.filter_some]
  cases labels.contains i.address with
  | true => rfl
  | false => rfl

/-- The lines are those of the groups. -/
theorem linesFrom_eq {instructions : List Instruction}
    (h : ∀ i ∈ instructions, i.isRenderable = true) :
    linesFrom labels false instructions =
      ((groups instructions).flatMap (block labels)).map .ok := by
  induction instructions using groups_induction with
  | prefixes ps hps =>
    rw [groups_of_prefixes hps]
    cases ps with
    | nil => rfl
    | cons p ps =>
      rw [if_neg (List.cons_ne_nil p ps), List.flatMap_singleton, block, body?_of_prefixes hps]
      rw [List.forall_mem_cons] at hps
      rw [linesFrom_false p ps, hps.1, (linesFrom_true hps.2).1, if_pos rfl, List.append_nil,
        List.append_nil]
      exact congrArg _ (List.append_nil _).symm
  | group ps i rest hps hi ih =>
    have hline := line_eq (h i (by simp)) labels
    have hrest := ih fun j hj => h j (by simp [hj])
    rw [groups_append_cons hps hi, List.flatMap_cons, List.map_append, ← hrest, block,
      body?_append hi, List.map_append]
    cases ps with
    | nil =>
      rw [List.nil_append, linesFrom_false i [], hi, if_neg Bool.false_ne_true, hline]
      rfl
    | cons p ps =>
      rw [List.forall_mem_cons] at hps
      rw [List.cons_append, linesFrom_false p (ps ++ [i]), hps.1, if_pos rfl, List.append_nil,
        (linesFrom_true hps.2).2 i rest hi, hline, List.append_assoc]
      rfl

end Lines

end Labels

/-! ## Plain listings -/

namespace Listing

/-- The line of a group: that of its instruction, from the first byte of the group on. -/
def groupLine? (l : Listing) (group : List Instruction) : Option (Except Fault String) :=
  (body? group).bind fun i => (start? group).map fun start => l.lineFrom start i

theorem lines_of_waiting (l : Listing) {start : UInt32} (hl : l.waiting = some start)
    {ps : List Instruction} (h : ∀ p ∈ ps, p.isPrefix = true) :
    l.lines ps = [] ∧ ∀ i rest, i.isPrefix = false →
      l.lines (ps ++ i :: rest) =
        l.lineFrom start i :: { l with waiting := none }.lines rest := by
  induction ps with
  | nil =>
    refine ⟨rfl, fun i rest hi => ?_⟩
    rw [List.nil_append, lines, add, hi, hl]
    rfl
  | cons p ps ih =>
    rw [List.forall_mem_cons] at h
    obtain ⟨hnone, hsome⟩ := ih h.2
    have hsame : { l with waiting := some (l.waiting.getD p.address) } = l := by
      rw [hl, Option.getD_some, ← hl]
    have hadd : l.add p = (none, l) := by
      rw [add, if_pos h.1, hsame]
    refine ⟨?_, fun i rest hi => ?_⟩
    · rw [lines, hadd]
      exact hnone
    · rw [List.cons_append, lines, hadd]
      exact hsome i rest hi

/-- Every group with an instruction has a line. -/
theorem lines_eq (l : Listing) (hl : l.waiting = none) (instructions : List Instruction) :
    l.lines instructions = (groups instructions).filterMap l.groupLine? := by
  have hclear : { l with waiting := none } = l := by rw [← hl]
  have hfirst : ∀ (p : Instruction) (rest : List Instruction), p.isPrefix = true →
      l.lines (p :: rest) = { l with waiting := some p.address }.lines rest := by
    intro p rest hp
    rw [lines, add, if_pos hp, hl]
    rfl
  induction instructions using groups_induction with
  | prefixes ps h =>
    rw [groups_of_prefixes h]
    cases ps with
    | nil => rfl
    | cons p ps =>
      rw [if_neg (List.cons_ne_nil p ps), List.filterMap_cons, groupLine?, body?_of_prefixes h]
      rw [List.forall_mem_cons] at h
      rw [hfirst p ps h.1, (lines_of_waiting _ rfl h.2).1]
      rfl
  | group ps i rest h hi ih =>
    rw [groups_append_cons h hi, List.filterMap_cons, groupLine?, body?_append hi, ← ih]
    cases ps with
    | nil =>
      rw [List.nil_append, lines, add, hi, if_neg Bool.false_ne_true, hclear, hl]
      rfl
    | cons p ps =>
      rw [List.forall_mem_cons] at h
      rw [List.cons_append, hfirst p _ h.1, (lines_of_waiting _ rfl h.2).2 i rest hi]
      exact congrArg _ (congrArg (fun l : Listing => l.lines rest) hclear)

theorem exists_lineFrom_eq_ok (l : Listing) (start : UInt32) {i : Instruction}
    (h : i.isRenderable = true) : ∃ text, l.lineFrom start i = .ok text := by
  rw [lineFrom]
  split <;> rw [text, if_pos h] <;> exact ⟨_, rfl⟩

/-- Instructions that have a text have lines. -/
theorem exists_lines_eq_ok (l : Listing) {instructions : List Instruction}
    (h : ∀ i ∈ instructions, i.isRenderable = true) :
    ∃ texts : List String, l.lines instructions = texts.map .ok := by
  induction instructions generalizing l with
  | nil => exact ⟨[], rfl⟩
  | cons i rest ih =>
    rw [List.forall_mem_cons] at h
    rw [lines, add]
    cases i.isPrefix with
    | true => exact ih _ h.2
    | false =>
      obtain ⟨text, htext⟩ := l.exists_lineFrom_eq_ok (l.waiting.getD i.address) h.1
      obtain ⟨texts, htexts⟩ := ih { l with waiting := none } h.2
      refine ⟨text :: texts, ?_⟩
      rw [List.map_cons, ← htexts, ← htext]
      rfl

end Listing

/-! ## Writing -/

namespace Output

/-- Lines that are written whole are written one after the other. -/
theorem writeLines_eq_ok {o o' : Output} {lines : List (Except Fault String)}
    (h : o.writeLines lines = (none, o')) : ∃ texts : List String, lines = texts.map .ok ∧
      o'.pieces.toList = o.pieces.toList ++ texts.map (· ++ "\n") := by
  induction lines generalizing o with
  | nil =>
    cases h
    exact ⟨[], rfl, by simp⟩
  | cons line rest ih =>
    cases line with
    | error f => cases h
    | ok line =>
      rw [writeLines] at h
      cases hw : o.writeLine line with
      | mk refused p =>
        rw [hw] at h
        cases refused with
        | some e => cases h
        | none =>
          have hpieces : p.pieces = o.pieces.push (line ++ "\n") := by
            rw [writeLine, write] at hw
            split at hw <;> cases hw <;> rfl
          obtain ⟨texts, rfl, htexts⟩ := ih h
          refine ⟨line :: texts, rfl, ?_⟩
          rw [htexts, hpieces, Array.toList_push, List.append_assoc]
          rfl

/-- An output without a limit takes everything. -/
theorem writeLines_unlimited (pieces : Array String) (texts : List String) :
    writeLines ⟨pieces, none⟩ (texts.map .ok) =
      (none, ⟨pieces ++ (texts.map (· ++ "\n")).toArray, none⟩) := by
  induction texts generalizing pieces with
  | nil => simp [writeLines]
  | cons line rest ih =>
    rw [List.map_cons, writeLines, show writeLine ⟨pieces, none⟩ line =
      (none, ⟨pieces.push (line ++ "\n"), none⟩) from rfl]
    dsimp only
    rw [ih]
    simp

end Output

/-- A region that can be listed is listed up to where decoding stops. -/
theorem Listing.writeAll_unlimited {l : Listing} {image : Image} {start : Cursor} {count : UInt32}
    {texts : List String}
    (h : l.lines (Decoder.new image start count).decodeAll.2.decoded.toList = texts.map .ok) :
    l.writeAll (.new image start count) .unlimited =
      ((Decoder.new image start count).decodeAll.1.map .decode,
        ⟨(texts.map (· ++ "\n")).toArray, none⟩) := by
  rw [writeAll]
  dsimp only
  rw [show (Decoder.new image start count).decoded.size = 0 from rfl, List.drop_zero, h,
    Output.unlimited, Output.writeLines_unlimited, Array.empty_append]

theorem Labels.write_unlimited {instructions : List Instruction}
    (h : ∀ i ∈ instructions, i.isRenderable = true) :
    write .unlimited instructions =
      (none, ⟨(((groups instructions).flatMap (block (labels instructions))).map
        (· ++ "\n")).toArray, none⟩) := by
  rw [write, lines, linesFrom_eq h, Output.unlimited, Output.writeLines_unlimited,
    Array.empty_append]

/-! ## Decoded instructions -/

namespace Decoder

/-- Everything found so far is legible, and what waits comes from prefixes. -/
structure Reads (d : Decoder) : Prop where
  legible : ∀ i ∈ d.decoded.toList, i.Legible
  waiting : d.pending.OfRun

namespace Reads

variable {d : Decoder}

theorem new (image : Image) (start : Cursor) (count : UInt32) :
    (Decoder.new image start count).Reads :=
  ⟨fun _ hi => absurd hi List.not_mem_nil, .clear⟩

theorem next (h : d.Reads) : d.next.2.Reads := by
  rcases d.next_cases with ⟨e, he⟩ | ⟨x, -, hx, hd⟩
  · rw [he]
    exact h
  · rw [hd]
    refine ⟨?_, h.waiting.decodeWithin hx⟩
    intro i hi
    rw [take, Array.toList_push, List.mem_append, List.mem_singleton] at hi
    rcases hi with hi | rfl
    · exact h.legible i hi
    · exact legible_of_decodeWithin h.waiting hx

end Reads

theorem legible_of_mem_after {image : Image} {start : Cursor} {count : UInt32} {calls : List Call}
    {i : Instruction} (hi : i ∈ ((new image start count).after calls).decoded.toList) :
    i.Legible :=
  (preserved_by_calls (fun _ h => Reads.next h) (fun _ _ h => ⟨h.legible, h.waiting⟩)
    (.new image start count) calls).legible i hi

end Decoder
end I8086
