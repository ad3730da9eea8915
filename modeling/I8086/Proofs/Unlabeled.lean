import I8086.Proofs.Groups
import Mathlib.Data.List.Basic
import Mathlib.Data.List.DropRight

/-!
# Taking the labels out again

A listing with labels should say what the plain listing says: without the lines of the labels,
without the comments, and with the distances back in the place of the labels, it should be the plain
listing.  It nearly is.  The line of a jump to a label is put together anew and not from the plain
line, and the words for `lock` and for a repetition are forgotten.

* `Labels.uncomment`, `Labels.isLabel`, `Labels.lastWord` and `Labels.unlabel` read lines as texts.
* `Labels.lineText_eq` divides a line into what it says and its comment.
* `Labels.lost` are the words that are missing, and `Labels.lost_append_unlabeled` says that nothing
  else is.
-/

set_option autoImplicit false

namespace I8086

open Instruction Text

namespace Labels

/-! ## Reading lines -/

/-- The part of a line in front of its comment, and of the space between them. -/
def uncomment (line : String) : String :=
  if ';' ∈ line.toList then .ofList (line.toList.takeWhile (· != ';')).dropLast else line

/-- Whether a text begins like the name of a label. -/
def isLabel (s : String) : Bool := "label__".toList.isPrefixOf s.toList

/-- What stands behind the last space. -/
def lastWord (s : String) : String := .ofList (s.toList.rtakeWhile (· != ' '))

/-- Puts a distance in the place of a label at the end of a line. -/
def unlabel (distance : Int) (line : String) : String :=
  if isLabel (lastWord line) then
    .ofList (line.toList.rdropWhile (· != ' ')) ++ "$" ++ plusSigned distance
  else line

/-- The line of an instruction without comment and label. -/
def unlabeled (i : Instruction) (line : String) : String :=
  match i.operands.first with
  | some (.relative distance) => unlabel distance.toInt (uncomment line)
  | _ => uncomment line

/-- The lines of a listing with labels, when all that comes with labels is taken away. -/
def erase (instructions : List Instruction) (lines : List String) : List String :=
  List.zipWith unlabeled (instructions.filter fun i => !i.isPrefix)
    (lines.filter fun line => !isLabel line)

theorem uncomment_of_lacks {s : String} (h : ';' ∉ s.toList) : uncomment s = s := if_neg h

theorem uncomment_append {s : String} (h : ';' ∉ s.toList) (name : String) :
    uncomment (s ++ " ; " ++ name) = s := by
  have hchars : (s ++ " ; " ++ name).toList =
      (s.toList ++ [' ']) ++ ';' :: ' ' :: name.toList := by
    rw [String.toList_append, String.toList_append, List.append_assoc, List.append_assoc]
    rfl
  have hfront : ';' ∉ s.toList ++ [' '] := by
    simpa using h
  rw [uncomment, hchars, if_pos (by simp), takeWhile_of_stops (bne_of_not_mem hfront) (.cons rfl _),
    List.dropLast_concat, String.ofList_toList]

theorem isLabel_of_lacks {s : String} (h : '_' ∉ s.toList) : isLabel s = false := by
  refine Bool.eq_false_iff.2 fun hlabel => h ?_
  rw [isLabel, List.isPrefixOf_iff_prefix] at hlabel
  exact hlabel.subset (by decide)

theorem isLabel_labelName (address : UInt32) : isLabel (labelName address) = true := by
  rw [isLabel, List.isPrefixOf_iff_prefix, labelName, String.toList_append]
  exact List.prefix_append ..

/-- What begins like a label has an underscore in its first word. -/
theorem isLabel_append {w : String} (hw : '_' ∉ w.toList) (hspace : ' ' ∉ w.toList) (s : String) :
    isLabel (w ++ " " ++ s) = false := by
  refine Bool.eq_false_iff.2 fun hlabel => hw ?_
  rw [isLabel, List.isPrefixOf_iff_prefix, String.toList_append, String.toList_append,
    List.append_assoc] at hlabel
  obtain ⟨tail, htail⟩ := hlabel
  rw [← takeWhile_of_stops (bne_of_not_mem hspace) (.cons (c := ' ') rfl s.toList),
    show ' ' :: s.toList = " ".toList ++ s.toList from rfl, ← htail,
    show "label__".toList = ['l', 'a', 'b', 'e', 'l', '_', '_'] from rfl]
  simp

section LastWord

variable {s w : String} (h : ' ' ∉ w.toList)

include h

theorem rtakeWhile_append : (s ++ " " ++ w).toList.rtakeWhile (· != ' ') = w.toList := by
  have hstops : Stops (· != ' ') (s ++ " ").toList.reverse := by
    rw [String.toList_append, List.reverse_append]
    exact .cons rfl _
  have hword : ∀ c ∈ w.toList.reverse, (c != ' ') = true :=
    bne_of_not_mem fun hmem => h (List.mem_reverse.1 hmem)
  rw [List.rtakeWhile, String.toList_append, List.reverse_append, takeWhile_of_stops hword hstops,
    List.reverse_reverse]

theorem lastWord_append : lastWord (s ++ " " ++ w) = w := by
  rw [lastWord, rtakeWhile_append h, String.ofList_toList]

theorem unlabel_of_isLabel (hw : isLabel w = true) (distance : Int) :
    unlabel distance (s ++ " " ++ w) = s ++ " $" ++ plusSigned distance := by
  have hfront : (s ++ " " ++ w).toList.rdropWhile (· != ' ') = (s ++ " ").toList := by
    have hwhole : (s ++ " " ++ w).toList.rdropWhile (· != ' ') ++ w.toList =
        (s ++ " ").toList ++ w.toList := by
      rw [← rtakeWhile_append (s := s) h, List.rdropWhile_append_rtakeWhile, rtakeWhile_append h,
        String.toList_append]
    exact List.append_cancel_right hwhole
  rw [unlabel, lastWord_append h, if_pos hw, hfront, String.ofList_toList, show " $" = " " ++ "$"
    from rfl, ← String.append_assoc]

theorem unlabel_of_not_isLabel (hw : isLabel w = false) (distance : Int) :
    unlabel distance (s ++ " " ++ w) = s ++ " " ++ w := by
  rw [unlabel, lastWord_append h, hw, if_neg Bool.false_ne_true]

end LastWord

/-! ## What lines say -/

/-- The line of an instruction without its comment. -/
def jumpText (labels : Std.HashSet UInt32) (i : Instruction) : String :=
  match (target? i).filter labels.contains with
  | some target => i.operation.mnemonic ++ " " ++ labelName target
  | none => i.render

/-- The comment behind a jump. -/
def comment (i : Instruction) : String :=
  match (target? i).bind fun _ => alternativeName? i.operation with
  | some name => " ; " ++ name
  | none => ""

theorem target?_eq_some_iff {i : Instruction} {target : UInt32} : target? i = some target ↔
    ∃ d : Int32, i.operands.first = some (.relative d) ∧ i.address + d.toUInt32 = target := by
  rw [target?]
  split
  · rename_i d hd
    rw [hd, Option.some.injEq]
    exact ⟨fun h => ⟨d, rfl, h⟩, fun ⟨_, heq, h⟩ => by cases heq; exact h⟩
  · rename_i hnone
    refine ⟨fun h => ?_, fun ⟨d, hd, _⟩ => absurd hd (hnone d)⟩
    cases h

theorem lineText_eq (labels : Std.HashSet UInt32) (i : Instruction) :
    lineText labels i = jumpText labels i ++ comment i := by
  rw [lineText, jumpText, comment]
  cases target? i with
  | none => exact String.append_empty.symm
  | some target =>
    rw [Option.filter_some, Option.bind_some]
    dsimp only
    cases labels.contains target <;> cases alternativeName? i.operation
    all_goals first | exact String.append_empty.symm | exact String.append_assoc

theorem lacks_labelName (address : UInt32) : Lacks [' ', ';'] (labelName address) := by
  refine .append (by simp [Lacks]) (lacks_decimal (by simp) _)

/-- What a line says has no semicolon. -/
theorem not_mem_jumpText (labels : Std.HashSet UInt32) (i : Instruction) :
    ';' ∉ (jumpText labels i).toList := by
  rw [jumpText]
  split
  · rw [String.toList_append, String.toList_append, List.mem_append, List.mem_append]
    rintro ((hmem | hmem) | hmem)
    · exact i.operation.lacks_mnemonic ';' (by simp) hmem
    · simp at hmem
    · exact lacks_labelName _ ';' (by simp) hmem
  · exact i.lacks_render ';' (by simp)

theorem uncomment_lineText (labels : Std.HashSet UInt32) (i : Instruction) :
    uncomment (lineText labels i) = jumpText labels i := by
  rw [lineText_eq, comment]
  split
  · rw [← String.append_assoc, uncomment_append (not_mem_jumpText labels i)]
  · rw [String.append_empty, uncomment_of_lacks (not_mem_jumpText labels i)]

theorem not_mem_comment (i : Instruction) : '_' ∉ (comment i).toList := by
  have hname : ∀ (op : Operation) (name : String), alternativeName? op = some name →
      '_' ∉ name.toList := by
    intro op name h
    cases op <;> cases h <;> simp
  rw [comment]
  split
  · rename_i name h
    obtain ⟨target, -, hop⟩ := Option.bind_eq_some_iff.1 h
    simpa using hname _ _ hop
  · simp

/-- The line of an instruction is not taken for the line of a label. -/
theorem isLabel_lineText (labels : Std.HashSet UInt32) (i : Instruction) :
    isLabel (lineText labels i) = false := by
  rw [lineText_eq, jumpText]
  split
  · rw [String.append_assoc]
    exact isLabel_append (i.operation.lacks_mnemonic '_' (by simp))
      (i.operation.lacks_mnemonic ' ' (by simp)) _
  · refine isLabel_of_lacks ?_
    rw [String.toList_append, List.mem_append]
    exact fun hmem => hmem.elim (i.lacks_render '_' (by simp)) (not_mem_comment i)

theorem isLabel_labelLine (address : UInt32) : isLabel (labelName address ++ ":") = true := by
  rw [isLabel, List.isPrefixOf_iff_prefix, labelName, String.append_assoc, String.toList_append]
  exact List.prefix_append ..

/-- The words that the line of a jump to a label leaves out. -/
def lost (labels : Std.HashSet UInt32) (i : Instruction) : String :=
  match (target? i).filter labels.contains with
  | some _ => .ofList (spaced i.prefixes)
  | none => ""

end Labels

theorem Operation.isString_of_jumps {op : Operation} (h : op.jumps = true) :
    op.isString = false := by
  cases op <;> cases h <;> rfl

theorem Instruction.Legible.render_of_relative {i : Instruction} (hi : i.Legible) {d : Int32}
    (hd : i.operands.first = some (.relative d)) :
    i.render =
      .ofList (spaced i.prefixes) ++ (i.operation.mnemonic ++ " $" ++ plusSigned d.toInt) := by
  obtain ⟨halone, hjumps⟩ := hi.of_relative hd
  have hhead : i.renderHead = .ofList (spaced i.prefixes) ++ i.operation.mnemonic := by
    rw [← String.toList_inj, toList_renderHead, String.toList_append, String.toList_ofList, word,
      Operation.word, Operation.isString_of_jumps hjumps, if_neg Bool.false_ne_true,
      String.append_empty]
  rw [render_eq, rest_of_relative halone, hhead, String.append_assoc, String.append_assoc]

namespace Labels

/-- What is left of the line of an instruction is its text, apart from the words that are lost. -/
theorem lost_append_unlabeled {i : Instruction} (hi : i.Legible) (labels : Std.HashSet UInt32) :
    lost labels i ++ unlabeled i (lineText labels i) = i.render := by
  rw [unlabeled, uncomment_lineText]
  cases htarget : (target? i).filter labels.contains with
  | some target =>
    obtain ⟨d, hd, -⟩ := target?_eq_some_iff.1 (Option.filter_eq_some_iff.1 htarget).1
    rw [lost, jumpText, htarget, hd]
    dsimp only
    rw [unlabel_of_isLabel (lacks_labelName target ' ' (by simp)) (isLabel_labelName target),
      hi.render_of_relative hd]
  | none =>
    rw [lost, jumpText, htarget]
    dsimp only
    rw [String.empty_append]
    split
    · rename_i d hd
      have hword : Lacks [' ', '_'] ("$" ++ plusSigned d.toInt) := by
        rw [plusSigned]
        split <;> simp [Lacks, not_mem_decimal]
      have hrender : i.render = .ofList (spaced i.prefixes) ++ i.operation.mnemonic ++ " " ++
          ("$" ++ plusSigned d.toInt) := by
        rw [hi.render_of_relative hd, show " $" = " " ++ "$" from rfl]
        simp only [String.append_assoc]
      rw [hrender, unlabel_of_not_isLabel (hword ' ' (by simp))
        (isLabel_of_lacks (hword '_' (by simp)))]
    · rfl

/-! ## The two listings -/

theorem filter_block (labels : Std.HashSet UInt32) (group : List Instruction) :
    (block labels group).filter (fun line => !isLabel line) =
      ((body? group).map (lineText labels)).toList := by
  have hlabel : (labelLine? labels group).toList.filter (fun line => !isLabel line) = [] := by
    rw [labelLine?]
    cases (start? group).filter labels.contains with
    | none => rfl
    | some address => simp [isLabel_labelLine]
  rw [block, List.filter_append, hlabel, List.nil_append]
  cases body? group with
  | none => rfl
  | some i => simp [isLabel_lineText]

/-- Without the labels there is a line for every group with an instruction. -/
theorem filter_flatMap_block (labels : Std.HashSet UInt32) (gs : List (List Instruction)) :
    (gs.flatMap (block labels)).filter (fun line => !isLabel line) =
      (gs.filterMap body?).map (lineText labels) := by
  rw [List.filter_flatMap, List.map_filterMap, List.filterMap_eq_flatMap_toList]
  exact List.flatMap_congr fun group _ => filter_block labels group

/-- Without the labels there is a line for every instruction that is not a prefix. -/
theorem filter_lines (labels : Std.HashSet UInt32) (instructions : List Instruction) :
    ((groups instructions).flatMap (block labels)).filter (fun line => !isLabel line) =
      (instructions.filter fun i => !i.isPrefix).map (lineText labels) := by
  rw [filter_flatMap_block, filterMap_body?_groups]

end Labels

/-- A listing without annotations shows the texts and nothing else. -/
theorem Listing.lines_of_not_annotate (l : Listing) (hl : l.annotate = false)
    (instructions : List Instruction) :
    l.lines instructions = (instructions.filter fun i => !i.isPrefix).map text := by
  have hlineFrom : ∀ (l : Listing) (start : UInt32) (i : Instruction), l.annotate = false →
      l.lineFrom start i = i.text := by
    intro l start i hl
    rw [lineFrom, hl]
  induction instructions generalizing l with
  | nil => rfl
  | cons i rest ih =>
    rw [lines, add, List.filter_cons]
    cases i.isPrefix with
    | true => exact ih _ hl
    | false =>
      rw [hlineFrom l _ i hl]
      exact congrArg (i.text :: ·) (ih { l with waiting := none } hl)

namespace Labels

theorem lost_eq_empty_iff {labels : Std.HashSet UInt32} {i : Instruction} :
    lost labels i = "" ↔ ∀ target, target? i = some target → labels.contains target = true →
      i.modifiers.has .lock = false ∧ i.modifiers.has .repeated = false := by
  have hprefixes : String.ofList (spaced i.prefixes) = "" ↔
      i.modifiers.has .lock = false ∧ i.modifiers.has .repeated = false := by
    have hspaced : spaced i.prefixes = [] ↔ i.prefixes = [] := by
      rw [spaced, List.flatMap_eq_nil_iff, List.eq_nil_iff_forall_not_mem]
      exact forall₂_congr fun w _ => iff_of_false (by simp) id
    rw [← String.toList_inj, String.toList_ofList, String.toList_empty, hspaced, prefixes]
    cases i.modifiers.has .lock <;> cases i.modifiers.has .repeated <;> simp
  rw [lost]
  cases htarget : target? i with
  | none => simp
  | some target =>
    rw [Option.filter_some]
    cases hcontains : labels.contains target with
    | true =>
      refine hprefixes.trans ⟨fun h t ht _ => h, fun h => h target rfl hcontains⟩
    | false =>
      refine ⟨fun _ t ht hc => ?_, fun _ => rfl⟩
      cases ht
      rw [hcontains] at hc
      cases hc

theorem erase_flatMap_block (labels : Std.HashSet UInt32) (instructions : List Instruction) :
    erase instructions ((groups instructions).flatMap (block labels)) =
      (instructions.filter fun i => !i.isPrefix).map fun i => unlabeled i (lineText labels i) := by
  rw [erase, filter_lines, List.zipWith_map_right, List.zipWith_self]

/-- Jumps are not prefixes. -/
theorem isPrefix_of_target {i : Instruction} (hi : i.Legible) {target : UInt32}
    (h : target? i = some target) : i.isPrefix = false := by
  obtain ⟨d, hd, -⟩ := target?_eq_some_iff.1 h
  have hjumps := (hi.of_relative hd).2
  rw [isPrefix]
  generalize i.operation = op at hjumps
  cases op <;> cases hjumps <;> rfl

/-- **What a listing with labels leaves of the plain listing.**  Both list whatever a decoder has
found, without fail, and without the lines of the labels they have the same number of lines.  What
such a line says behind its label and its comment is the plain line, but a jump to a label has lost
its `lock` and its repetition.  So the two agree exactly if no jump to a label has either. -/
theorem erase_eq_plain_iff (image : Image) (start : Cursor) (count : UInt32)
    (calls : List Decoder.Call) (shown : Option Image) :
    let instructions := ((Decoder.new image start count).after calls).decoded.toList
    ∃ labeled plain : List String,
      write .unlimited instructions = (none, ⟨(labeled.map (· ++ "\n")).toArray, none⟩) ∧
      Output.unlimited.writeLines ((Listing.new shown false).lines instructions) =
        (none, ⟨(plain.map (· ++ "\n")).toArray, none⟩) ∧
      (labeled.filter fun line => !isLabel line).length = plain.length ∧
      plain = List.zipWith (fun i line => lost (labels instructions) i ++ line)
        (instructions.filter fun i => !i.isPrefix) (erase instructions labeled) ∧
      (erase instructions labeled = plain ↔ ∀ i ∈ instructions, ∀ target,
        target? i = some target → (labels instructions).contains target = true →
          i.modifiers.has .lock = false ∧ i.modifiers.has .repeated = false) := by
  intro instructions
  have hlegible : ∀ i ∈ instructions, i.Legible := fun i hi => Decoder.legible_of_mem_after hi
  have hrenderable : ∀ i ∈ instructions, i.isRenderable = true :=
    fun i hi => (hlegible i hi).shaped.isRenderable
  have hplain : (Listing.new shown false).lines instructions =
      ((instructions.filter fun i => !i.isPrefix).map render).map .ok := by
    rw [Listing.lines_of_not_annotate _ rfl, List.map_map]
    refine List.map_congr_left fun i hi => ?_
    exact if_pos (hrenderable i (List.mem_filter.1 hi).1)
  refine ⟨(groups instructions).flatMap (block (labels instructions)),
    (instructions.filter fun i => !i.isPrefix).map render, write_unlimited hrenderable,
    ?_, ?_, ?_, ?_⟩
  · rw [hplain, Output.unlimited, Output.writeLines_unlimited, Array.empty_append]
  · rw [filter_lines, List.length_map, List.length_map]
  · rw [erase_flatMap_block, List.zipWith_map_right, List.zipWith_self]
    exact List.map_congr_left fun i hi =>
      (lost_append_unlabeled (hlegible i (List.mem_filter.1 hi).1) _).symm
  · have hsame : ∀ i ∈ instructions,
        unlabeled i (lineText (labels instructions) i) = i.render ↔
          lost (labels instructions) i = "" := by
      intro i hi
      rw [← lost_append_unlabeled (hlegible i hi) (labels instructions)]
      constructor
      · intro h
        exact ((String.append_left_inj _).1 (String.empty_append.trans h)).symm
      · intro h
        rw [h, String.empty_append]
    rw [erase_flatMap_block, List.map_inj_left]
    constructor
    · intro h i hi target htarget hcontains
      have hprefixed : i.isPrefix = false := isPrefix_of_target (hlegible i hi) htarget
      have hmem : i ∈ instructions.filter fun i => !i.isPrefix :=
        List.mem_filter.2 ⟨hi, by rw [hprefixed]; rfl⟩
      exact lost_eq_empty_iff.1 ((hsame i hi).1 (h i hmem)) target htarget hcontains
    · intro h i hi
      have hi := (List.mem_filter.1 hi).1
      exact (hsame i hi).2 (lost_eq_empty_iff.2 (h i hi))

/-- A jump back to its own `lock`: the lines of the two listings say different things. -/
theorem erase_ne_plain :
    let d := (Decoder.ofProgram [0xF0, 0xEB, 0xFD]).after [.next, .next]
    let instructions := d.decoded.toList
    let labeled := ["label__0:", "jmp label__0"]
    let plain := ["lock jmp $-1"]
    d.pos = d.count ∧
      (write .unlimited instructions).2.pieces.toList = labeled.map (· ++ "\n") ∧
      (Output.unlimited.writeLines ((Listing.new none false).lines instructions)).2.pieces.toList =
        plain.map (· ++ "\n") ∧
      erase instructions labeled = ["jmp $-1"] ∧ erase instructions labeled ≠ plain := by
  let lock : Instruction := ⟨0, 1, .lock, .none, .empty⟩
  let jump : Instruction := ⟨1, 2, .jmp, .lock, ⟨some (.relative (-1)), none, none⟩⟩
  intro d instructions labeled plain
  have hdecoded : d.pos = d.count ∧ instructions = [lock, jump] ∧ labelName 0 = "label__0" ∧
      (Output.unlimited.writeLines ((Listing.new none false).lines instructions)).2.pieces.toList =
        plain.map (· ++ "\n") ∧
      erase instructions labeled = ["jmp $-1"] ∧ erase instructions labeled ≠ plain := by
    decide +kernel
  obtain ⟨hend, hinstructions, hname, hplain⟩ := hdecoded
  have hlabel : (labels [lock, jump]).contains 0 = true := contains_labels_iff.2 (by decide)
  have hline : lineText (labels [lock, jump]) jump = "jmp label__0" := by
    rw [lineText, show target? jump = some 0 by decide]
    dsimp only
    rw [if_pos hlabel, hname]
    rfl
  have hblock : block (labels [lock, jump]) [lock, jump] = labeled := by
    rw [block, labelLine?_eq_some_iff.2 ⟨0, rfl, hlabel, rfl⟩, hname,
      show body? [lock, jump] = some jump from rfl, Option.map_some, hline]
    rfl
  refine ⟨hend, ?_, hplain⟩
  rw [hinstructions, write_unlimited (by decide),
    show groups [lock, jump] = [[lock, jump]] from rfl, List.flatMap_singleton, hblock]

end Labels
end I8086
