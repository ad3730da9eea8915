import Mathlib.Data.List.OfFn
import I8086.CommandLine.Session

/-!
# Files are processed one by one

A session over several files says what the sessions over each of them say, in the order of the
arguments.

* `Options.exists_flags` cuts a command line into its options and the names of its files, so there
  is a command line with the same options for each file alone.
* `Session.collect_eq_some` says that the order in which the files come to their ends does not show
  in the reports: each of them is in its own place in the end.
* `Session.finish_of_hasRoom` is what the writing of reports comes to if the output has room for all
  of them.  `Session.finish_of_refused` is the case in which the output refuses one of them: up to
  that report it is the first case.
* `Session.start_collects` says both in terms of the sessions over single files.
-/

set_option autoImplicit false

namespace I8086

/-! ## Command lines -/

namespace Options

theorem eq_of_classify_eq_terminator {argument : String} (h : classify argument = .terminator) :
    argument = "--" := by
  have hsplit (name : List Char) : splitValue name ≠ .terminator := by
    unfold splitValue
    split <;> nofun
  unfold classify at h
  split at h
  · rename_i hdashes
    exact String.toList_injective hdashes
  · dsimp only at h
    split at h
    · cases h
    · cases h
    · cases h
    · exact absurd h (hsplit _)
  · dsimp only at h
    split at h
    · cases h
    · cases h
    · cases h
    · exact absurd h (hsplit _)
  · cases h

/-- What is left of a command line whose first option was read. -/
theorem exists_of_parse_bind {x : Except OptionError Options} {rest : List String}
    {r : Options × List String} (h : (x >>= fun o => o.parse rest) = .ok r) :
    ∃ o, x = .ok o ∧ o.parse rest = .ok r := by
  cases x with
  | error e => cases h
  | ok o => exact ⟨o, rfl, h⟩

/-- **The options of a command line can be put in front of other files.**  What stands behind the
options are the names, after two dashes or without them. -/
theorem exists_flags {o o' : Options} {arguments names : List String}
    (h : o.parse arguments = .ok (o', names)) :
    ∃ flags, (arguments = flags ++ names ∨ arguments = flags ++ "--" :: names) ∧
      ∀ rest, o.parse (flags ++ "--" :: rest) = .ok (o', rest) := by
  have hend (o : Options) (rest : List String) : o.parse ("--" :: rest) = .ok (o, rest) := rfl
  fun_induction parse o arguments with
  | case1 =>
    cases h
    exact ⟨[], .inl rfl, hend _⟩
  | case2 =>
    cases h
    exact ⟨[], .inl rfl, hend _⟩
  | case3 o argument rest hterminator =>
    cases h
    cases eq_of_classify_eq_terminator hterminator
    exact ⟨[], .inr rfl, hend _⟩
  | case4 => cases h
  | case5 o argument value rest hoption ih =>
    obtain ⟨o₁, hset, hrest⟩ := exists_of_parse_bind h
    obtain ⟨flags, hnames, hflags⟩ := ih o₁ hrest
    refine ⟨argument :: flags, hnames.imp (congrArg _) (congrArg _), fun rest => ?_⟩
    simp only [List.cons_append, parse, hoption, hset, bind, Except.bind, hflags]
  | case6 o argument value rest hoption ih =>
    obtain ⟨o₁, hset, hrest⟩ := exists_of_parse_bind h
    obtain ⟨flags, hnames, hflags⟩ := ih o₁ hrest
    refine ⟨argument :: value :: flags, ?_, fun rest => ?_⟩
    · exact hnames.imp (congrArg (argument :: value :: ·)) (congrArg (argument :: value :: ·))
    · simp only [List.cons_append, parse, hoption, hset, bind, Except.bind, hflags]
  | case7 => cases h
  | case8 o argument rest name value hname hoption ih =>
    obtain ⟨o₁, hset, hrest⟩ := exists_of_parse_bind h
    obtain ⟨flags, hnames, hflags⟩ := ih o₁ hrest
    refine ⟨argument :: flags, hnames.imp (congrArg _) (congrArg _), fun rest => ?_⟩
    simp only [List.cons_append, parse, hoption, hset, bind, Except.bind, hflags]

end Options

/-! ## Writing reports -/

/-- What a report adds to the log. -/
def Report.log (r : Report) : String :=
  match r.failure with
  | none => ""
  | some failure => "sim86: " ++ failure.message ++ "\n"

/-- The outputs that are written. -/
def Report.outputs (reports : List Report) : List String :=
  (reports.map Report.output).filter (· ≠ "")

/-- The room that is left after some writes. -/
def Room.after (room : Room) (n : Nat) : Room := ⟨room.writes - n, room.refusal⟩

/-- The output after several writes that it accepted. -/
def Output.after (o : Output) (pieces : List String) : Output :=
  ⟨o.pieces ++ pieces.toArray, o.room.map (·.after pieces.length)⟩

/-- The output accepts a number of further writes. -/
def Output.HasRoom (o : Output) (n : Nat) : Prop := ∀ room ∈ o.room, n ≤ room.writes

namespace Output

theorem text_after (o : Output) (pieces : List String) :
    (o.after pieces).text = o.text ++ String.join pieces := by
  simp [text, after]

theorem after_nil (o : Output) : o.after [] = o := by
  simp [after, Room.after]

theorem after_after (o : Output) (pieces pieces' : List String) :
    (o.after pieces).after pieces' = o.after (pieces ++ pieces') := by
  simp [after, Room.after, Function.comp_def, Nat.sub_sub]

theorem HasRoom.after {o : Output} {pieces : List String} {n : Nat}
    (h : o.HasRoom (pieces.length + n)) : (o.after pieces).HasRoom n := by
  intro room hroom
  obtain ⟨before, hbefore, rfl⟩ := Option.map_eq_some_iff.1 hroom
  exact Nat.le_sub_of_add_le' (h before hbefore)

theorem hasRoom_withRoom_none (n : Nat) : (withRoom none).HasRoom n := by
  intro room h
  cases h

theorem write_of_hasRoom {o : Output} (h : o.HasRoom 1) (piece : String) :
    o.write piece = (none, o.after [piece]) := by
  obtain ⟨pieces, room⟩ := o
  cases room with
  | none => simp [write, after]
  | some room =>
    obtain ⟨writes, refusal⟩ := room
    cases writes with
    | zero => exact absurd (h _ rfl) (Nat.not_succ_le_zero 0)
    | succ writes => simp [write, after, Room.after]

end Output

namespace Report

theorem outputs_append (reports reports' : List Report) :
    outputs (reports ++ reports') = outputs reports ++ outputs reports' := by
  simp [outputs]

theorem outputs_singleton (r : Report) :
    outputs [r] = if r.output = "" then [] else [r.output] := by
  by_cases h : r.output = "" <;> simp [outputs, h]

/-- Leaving out empty outputs does not change the text. -/
theorem join_outputs (reports : List Report) :
    String.join (outputs reports) = String.join (reports.map Report.output) := by
  induction reports with
  | nil => rfl
  | cons r rest ih =>
    rw [← List.singleton_append, outputs_append, String.join_append, ih, outputs_singleton]
    by_cases h : r.output = "" <;> simp [h]

end Report

namespace Session

/-- A report is written and logged unless the output refuses it. -/
theorem writeReports_cons {stdout : Output} {r : Report}
    (hroom : stdout.HasRoom (Report.outputs [r]).length) (log : String) (failed : Nat)
    (rest : List Report) :
    writeReports stdout log failed (r :: rest) =
      writeReports (stdout.after (Report.outputs [r])) (log ++ r.log)
        (failed + [r].countP (·.failure.isSome)) rest := by
  have hwritten : (if r.output.isEmpty then (none, stdout) else stdout.write r.output) =
      (none, stdout.after (Report.outputs [r])) := by
    rw [Report.outputs_singleton] at hroom ⊢
    by_cases h : r.output = ""
    · simp [h, Output.after_nil]
    · rw [if_neg h] at hroom ⊢
      simp [h, Output.write_of_hasRoom hroom]
  rw [writeReports, hwritten]
  obtain ⟨output, _ | failure⟩ := r
  · simp [Report.log]
  · simp [Report.log, String.append_assoc]

/-- **Reports for which there is room** are all written and logged before the others. -/
theorem writeReports_append {stdout : Output} {reports : List Report}
    (hroom : stdout.HasRoom (Report.outputs reports).length) (log : String)
    (failed : Nat) (rest : List Report) :
    writeReports stdout log failed (reports ++ rest) =
      writeReports (stdout.after (Report.outputs reports))
        (log ++ String.join (reports.map Report.log))
        (failed + reports.countP (·.failure.isSome)) rest := by
  induction reports generalizing stdout log failed with
  | nil => simp [Report.outputs, Output.after_nil]
  | cons r reports ih =>
    have hcons : Report.outputs (r :: reports) = Report.outputs [r] ++ Report.outputs reports :=
      Report.outputs_append [r] reports
    rw [hcons, List.length_append] at hroom
    have hfirst : stdout.HasRoom (Report.outputs [r]).length :=
      fun room h => Nat.le_trans (Nat.le_add_right _ _) (hroom room h)
    rw [List.cons_append, writeReports_cons hfirst, ih hroom.after, Output.after_after, ← hcons,
      String.append_assoc, Nat.add_assoc]
    simp only [List.map_cons, String.join_cons, List.countP_cons, List.countP_nil, Nat.add_comm,
      Nat.zero_add]

theorem finish_of_hasRoom {stdout : Output} {reports : List Report}
    (hroom : stdout.HasRoom (Report.outputs reports).length) (total : Nat) :
    finish stdout total reports =
      let failed := reports.countP (·.failure.isSome)
      ⟨stdout.after (Report.outputs reports), String.join (reports.map Report.log),
        if failed = 0 then none else some (.failures failed total)⟩ := by
  have hreports := writeReports_append hroom "" 0 []
  rw [List.append_nil, String.empty_append, Nat.zero_add, writeReports] at hreports
  rw [finish, hreports]
  cases reports.countP (·.failure.isSome) with
  | zero => rfl
  | succ k => rfl

/-- The output has room for the reports in front of `r`, but not for `r`. -/
theorem finish_of_refused {stdout : Output} {reports : List Report} {r : Report} {e : WriteError}
    (hroom : stdout.room = some ⟨(Report.outputs reports).length, e⟩) (hr : r.output ≠ "")
    (rest : List Report) (total : Nat) :
    finish stdout total (reports ++ r :: rest) =
      ⟨stdout.after (Report.outputs reports), String.join (reports.map Report.log),
        some (.write e)⟩ := by
  have hfits : stdout.HasRoom (Report.outputs reports).length := by
    intro room h
    cases hroom.symm.trans h
    exact Nat.le_refl _
  have hfull : (stdout.after (Report.outputs reports)).room = some ⟨0, e⟩ := by
    simp [Output.after, Room.after, hroom]
  rw [finish, writeReports_append hfits, String.empty_append, writeReports,
    if_neg (by simpa using hr), Output.write, hfull]

end Session

/-! ## Tasks at the same time -/

namespace Buffers

variable {n : Nat}

/-- The report at a place. -/
def report (b : Buffers n) (i : Fin n) : Report :=
  ⟨getElem b.outputs i.val i.isLt, getElem b.failures i.val i.isLt⟩

theorem report_put_self (b : Buffers n) (i : Fin n) (r : Report) : (b.put i r).report i = r := by
  simp [report, put]

theorem report_put_of_ne (b : Buffers n) {i j : Fin n} (h : i ≠ j) (r : Report) :
    (b.put i r).report j = b.report j := by
  have hval : i.val ≠ j.val := Fin.val_ne_of_ne h
  simp [report, put, hval]

theorem reports_eq (b : Buffers n) : b.reports = List.ofFn b.report := by
  refine List.ext_getElem (by simp [reports]) fun k hk hk' => ?_
  simp [reports, report]

variable {task : Fin n → Option Report} {order : List (Fin n)} {b b' : Buffers n} {i : Fin n}

/-- One task writes into its own place and into no other. -/
theorem report_settle (h : b.settle task i = some b') (j : Fin n) :
    (j = i → task j = some (b'.report j)) ∧ (j ≠ i → b'.report j = b.report j) := by
  obtain ⟨r, hr, rfl⟩ := Option.map_eq_some_iff.1 h
  refine ⟨?_, fun hne => b.report_put_of_ne hne.symm r⟩
  rintro rfl
  rw [report_put_self, hr]

theorem report_foldlM_of_notMem (h : order.foldlM (settle task) b = some b') (hi : i ∉ order) :
    b'.report i = b.report i := by
  induction order generalizing b with
  | nil =>
    cases h
    rfl
  | cons j order ih =>
    rw [List.foldlM_cons] at h
    obtain ⟨b₁, hfirst, hrest⟩ := Option.bind_eq_some_iff.1 h
    rw [List.mem_cons, not_or] at hi
    rw [ih hrest hi.2, (report_settle hfirst i).2 hi.1]

/-- Once its task has come to its end, a place keeps the report, whatever the other tasks do. -/
theorem report_foldlM_of_mem (h : order.foldlM (settle task) b = some b') (hi : i ∈ order) :
    task i = some (b'.report i) := by
  induction order generalizing b with
  | nil => cases hi
  | cons j order ih =>
    rw [List.foldlM_cons] at h
    obtain ⟨b₁, hfirst, hrest⟩ := Option.bind_eq_some_iff.1 h
    by_cases hmem : i ∈ order
    · exact ih hrest hmem
    · obtain rfl := (List.mem_cons.1 hi).resolve_right hmem
      rw [report_foldlM_of_notMem hrest hmem]
      exact (report_settle hfirst i).1 rfl

/-- The tasks come to an end together if each of them does. -/
theorem isSome_foldlM (h : ∀ i ∈ order, (task i).isSome = true) :
    ∃ b', order.foldlM (settle task) b = some b' := by
  induction order generalizing b with
  | nil => exact ⟨b, rfl⟩
  | cons j order ih =>
    obtain ⟨r, hr⟩ := Option.isSome_iff_exists.1 (h j List.mem_cons_self)
    rw [List.foldlM_cons, settle, hr]
    exact ih fun i hi => h i (List.mem_cons_of_mem _ hi)

end Buffers

namespace Session

section Collect

variable (schedule : Schedule) {n : Nat} {task : Fin n → Option Report}

theorem mem_order (i : Fin n) : i ∈ schedule.order n :=
  (schedule.perm n).mem_iff.2 (List.mem_finRange i)

/-- **The order in which tasks come to their ends does not matter.** -/
theorem collect_eq_some {r : Fin n → Report} (h : ∀ i, task i = some (r i)) :
    collect schedule task = some (List.ofFn r) := by
  obtain ⟨b, hb⟩ : ∃ b, (schedule.order n).foldlM (Buffers.settle task) (.empty n) = some b :=
    Buffers.isSome_foldlM fun i _ => by rw [h i]; rfl
  have hreport : b.report = r := funext fun i => Option.some.inj
    ((Buffers.report_foldlM_of_mem hb (mem_order schedule i)).symm.trans (h i))
  rw [collect, hb, Option.map_some, b.reports_eq, hreport]

/-- All tasks are waited for. -/
theorem collect_eq_none {i : Fin n} (h : task i = none) : collect schedule task = none := by
  rw [collect, Option.map_eq_none_iff, Option.eq_none_iff_forall_ne_some]
  intro b hb
  have hsome := Buffers.report_foldlM_of_mem hb (mem_order schedule i)
  rw [h] at hsome
  cases hsome

end Collect

/-! ## Sessions over several files -/

section Files

variable (unpack : Unpacker) (schedule : Schedule) {o : Options} {fuel : Nat}
  {files : String → Except OpenError Source} {names : List String}

theorem start_eq_processAll {annotate : Bool} {arguments : List String}
    (hparse : (Options.default annotate).parse arguments = .ok (o, names)) (hne : names ≠ [])
    (fuel : Nat) (files : String → Except OpenError Source) (stdout : Output) :
    start unpack schedule annotate fuel files stdout arguments =
      processAll unpack schedule o fuel files stdout names := by
  cases names with
  | nil => exact absurd rfl hne
  | cons name names => rw [start, hparse]

theorem find?_missing (hfound : ∀ name ∈ names, isFound (files name) = true) :
    names.find? (fun name => !isFound (files name)) = none :=
  List.find?_eq_none.2 fun name hname => by simp [hfound name hname]

/-- If every file comes to an end, the session writes the reports in the order of the names. -/
theorem processAll_eq_finish (hfound : ∀ name ∈ names, isFound (files name) = true)
    {r : String → Report}
    (hr : ∀ name ∈ names, process unpack o fuel name (files name) = some (r name))
    (stdout : Output) :
    processAll unpack schedule o fuel files stdout names =
      some (finish stdout names.length (names.map r)) := by
  have hcollect := collect_eq_some schedule (r := fun i => r (names.get i))
    fun i => hr (names.get i) (names.get_mem i)
  have hreports : List.ofFn (fun i => r (names.get i)) = names.map r := by
    rw [← Function.comp_def, ← List.map_ofFn, List.ofFn_get]
  rw [processAll, find?_missing hfound]
  dsimp only
  rw [hcollect, hreports, Option.map_some]

theorem processAll_eq_none (hfound : ∀ name ∈ names, isFound (files name) = true) {name : String}
    (hname : name ∈ names) (h : process unpack o fuel name (files name) = none) (stdout : Output) :
    processAll unpack schedule o fuel files stdout names = none := by
  obtain ⟨i, rfl⟩ := List.get_of_mem hname
  rw [processAll, find?_missing hfound]
  dsimp only
  rw [collect_eq_none schedule h, Option.map_none]

/-- A session over a single file ends if the processing of the file does. -/
theorem processAll_singleton {name : String} (hfound : isFound (files name) = true) :
    processAll unpack schedule o fuel files .unlimited [name] =
      (process unpack o fuel name (files name)).map fun r => finish .unlimited 1 [r] := by
  have hone : ∀ other ∈ [name], isFound (files other) = true := List.forall_mem_singleton.2 hfound
  cases hprocess : process unpack o fuel name (files name) with
  | none => exact processAll_eq_none unpack schedule hone List.mem_cons_self hprocess .unlimited
  | some r =>
    exact processAll_eq_finish unpack schedule (r := fun _ => r) hone
      (List.forall_mem_singleton.2 hprocess) .unlimited

theorem processAll_of_missing (h : ∃ name ∈ names, isFound (files name) = false)
    (stdout : Output) : ∃ name ∈ names, processAll unpack schedule o fuel files stdout names =
      some ⟨stdout, "", some (.missing name)⟩ := by
  rw [processAll]
  split
  · rename_i name hname
    exact ⟨name, List.mem_of_find?_eq_some hname, rfl⟩
  · rename_i hnone
    obtain ⟨name, hname, hmissing⟩ := h
    exact absurd (List.find?_eq_none.1 hnone name hname) (by simp [hmissing])

end Files

/-- What a session over a single file leaves behind is the report on the file. -/
structure Shows (s : Session) (r : Report) : Prop where
  text_eq : s.stdout.text = r.output
  stderr_eq : s.stderr = r.log
  isSome_error_eq : s.error.isSome = r.failure.isSome

theorem shows_finish (r : Report) : Shows (finish .unlimited 1 [r]) r := by
  have hroom : Output.unlimited.HasRoom (Report.outputs [r]).length :=
    Output.hasRoom_withRoom_none _
  rw [finish_of_hasRoom hroom]
  constructor
  · dsimp only
    rw [Output.text_after, Report.join_outputs]
    simp [Output.text, Output.unlimited]
  · simp
  · cases hfailure : r.failure <;> simp [hfailure]

/-- The session `s` over several files has logged what the sessions over the single files have
logged, and it failed if one of them did. -/
structure Collects (single : String → Session) (names : List String) (s : Session) : Prop where
  stderr_eq : s.stderr = String.join (names.map fun name => (single name).stderr)
  isSome_error_iff : s.error.isSome ↔ ∃ name ∈ names, (single name).error.isSome
  message_eq : ∀ e ∈ s.error, e.message =
    Text.decimal (names.countP fun name => (single name).error.isSome) ++ " of " ++
      Text.decimal names.length ++ " files failed"

theorem exists_append_of_lt_length_filter {α : Type} {p : α → Bool} {xs : List α} {m : Nat}
    (h : m < (xs.filter p).length) :
    ∃ before x after, xs = before ++ x :: after ∧ (before.filter p).length = m ∧ p x = true := by
  obtain ⟨front, back, hxs, hfront, hback⟩ :=
    List.filter_eq_append_iff.1 (List.take_append_drop m (xs.filter p)).symm
  rw [List.drop_eq_getElem_cons h] at hback
  obtain ⟨skipped, after, hafter, hskipped, hx, -⟩ := List.filter_eq_cons_iff.1 hback
  refine ⟨front ++ skipped, _, after, ?_, ?_, hx⟩
  · rw [List.append_assoc, ← hafter]
    exact hxs
  · rw [List.filter_append, hfront, List.filter_eq_nil_iff.2 hskipped, List.append_nil,
      List.length_take, Nat.min_eq_left (Nat.le_of_lt h)]

section Collects

variable {names : List String} {single : String → Session} {r : String → Report}
  (hsingle : ∀ name ∈ names, Shows (single name) (r name))

include hsingle

theorem map_text_eq : (names.map fun name => (single name).stdout.text) =
    (names.map r).map Report.output := by
  rw [List.map_map]
  exact List.map_congr_left fun name hname => (hsingle name hname).text_eq

/-- The texts of single sessions that are not empty. -/
theorem filter_text_eq : (names.map fun name => (single name).stdout.text).filter (· ≠ "") =
    Report.outputs (names.map r) := by
  rw [Report.outputs, map_text_eq hsingle]

theorem length_outputs_eq : (Report.outputs (names.map r)).length =
    (names.filter fun name => (single name).stdout.text ≠ "").length := by
  rw [← filter_text_eq hsingle, List.filter_map, List.length_map]
  rfl

theorem join_stderr_eq : String.join (names.map fun name => (single name).stderr) =
    String.join ((names.map r).map Report.log) := by
  rw [List.map_map]
  exact congrArg _ (List.map_congr_left fun name hname => (hsingle name hname).stderr_eq)

theorem collects_finish {stdout : Output}
    (hroom : stdout.HasRoom (Report.outputs (names.map r)).length) :
    Collects single names (finish stdout names.length (names.map r)) := by
  have hcount : names.countP (fun name => (single name).error.isSome) =
      (names.map r).countP (·.failure.isSome) := by
    rw [List.countP_map]
    exact List.countP_congr fun name hname => by
      rw [(hsingle name hname).isSome_error_eq, Function.comp_apply]
  rw [finish_of_hasRoom hroom]
  dsimp only
  rw [← hcount]
  constructor
  · exact (join_stderr_eq hsingle).symm
  · rw [← List.countP_pos_iff (p := fun name => (single name).error.isSome), Nat.pos_iff_ne_zero]
    generalize names.countP _ = k
    cases k with
    | zero => simp
    | succ k => simp
  · intro e he
    split at he
    · cases he
    · cases he
      rfl

/-- If there is more than `m` writes accept, some file is the first one that is refused. -/
theorem exists_refused {m : Nat} (hm : m < (Report.outputs (names.map r)).length) :
    ∃ before name after, names = before ++ name :: after ∧
      (before.filter fun name => (single name).stdout.text ≠ "").length = m ∧
      (single name).stdout.text ≠ "" := by
  rw [length_outputs_eq hsingle] at hm
  obtain ⟨before, name, after, hnames, hbefore, hname⟩ := exists_append_of_lt_length_filter hm
  exact ⟨before, name, after, hnames, hbefore, by simpa using hname⟩

end Collects

/-- The session `s` over several files has done what the sessions over the single files have done,
as far as an output that accepts `m` writes and refuses others with `e` let it. -/
structure CollectsWithin (single : String → Session) (names : List String) (m : Nat)
    (e : WriteError) (s : Session) : Prop where
  text_eq : s.stdout.text =
    String.join (((names.map fun name => (single name).stdout.text).filter (· ≠ "")).take m)
  of_room : ((names.map fun name => (single name).stdout.text).filter (· ≠ "")).length ≤ m →
    Collects single names s
  of_refused : m < ((names.map fun name => (single name).stdout.text).filter (· ≠ "")).length →
    s.error = some (.write e) ∧ ∃ before name after, names = before ++ name :: after ∧
      (before.filter fun name => (single name).stdout.text ≠ "").length = m ∧
      (single name).stdout.text ≠ "" ∧
      s.stderr = String.join (before.map fun name => (single name).stderr)

theorem text_finish_of_hasRoom {room : Option Room} {reports : List Report}
    (hroom : (Output.withRoom room).HasRoom (Report.outputs reports).length) (total : Nat) :
    (finish (.withRoom room) total reports).stdout.text =
      String.join (Report.outputs reports) := by
  rw [finish_of_hasRoom hroom]
  exact (Output.text_after ..).trans String.empty_append

theorem collectsWithin_finish {names : List String} {single : String → Session}
    {r : String → Report} (hsingle : ∀ name ∈ names, Shows (single name) (r name)) (m : Nat)
    (e : WriteError) : CollectsWithin single names m e
      (finish (.withRoom (some ⟨m, e⟩)) names.length (names.map r)) := by
  have hwritten := filter_text_eq hsingle
  rcases Nat.lt_or_ge m (Report.outputs (names.map r)).length with hm | hm
  · obtain ⟨before, name, after, rfl, hbefore, hname⟩ := exists_refused hsingle hm
    have hsingle' : ∀ name ∈ before, Shows (single name) (r name) :=
      fun name h => hsingle name (List.mem_append_left _ h)
    have hm' : m = (Report.outputs (before.map r)).length :=
      hbefore.symm.trans (length_outputs_eq hsingle').symm
    have hshows := hsingle name (List.mem_append_right _ List.mem_cons_self)
    have hroom : (Output.withRoom (some ⟨m, e⟩)).room =
        some ⟨(Report.outputs (before.map r)).length, e⟩ := by
      rw [← hm']
      rfl
    rw [List.map_append, List.map_cons, finish_of_refused hroom (hshows.text_eq ▸ hname)]
    refine ⟨?_, fun hle => ?_, fun _ => ⟨rfl, before, name, after, rfl, hbefore, hname, ?_⟩⟩
    · rw [hwritten, List.map_append, Report.outputs_append, hm', List.take_left]
      exact (Output.text_after ..).trans String.empty_append
    · rw [hwritten] at hle
      exact absurd hm (Nat.not_lt_of_le hle)
    · exact (join_stderr_eq hsingle').symm
  · have hroom : (Output.withRoom (some ⟨m, e⟩)).HasRoom (Report.outputs (names.map r)).length := by
      rintro room ⟨⟩
      exact hm
    refine ⟨?_, fun _ => collects_finish hsingle hroom, fun hlt => ?_⟩
    · rw [text_finish_of_hasRoom hroom, hwritten, List.take_of_length_le hm]
    · rw [hwritten] at hlt
      exact absurd hm (Nat.not_le_of_lt hlt)

/-- **A session treats its files one by one and in order.**  Take any command line whose options are
read and which names at least one file.  There is a command line with the same options for every
other file.  Consider the sessions over each of the files alone with such options.  The files are
processed at the same time, and nothing depends on the order in which they come to their ends.

* If a file is missing, nothing is written, whatever the output has room for.
* Otherwise the session ends exactly if all of the single sessions do.  Let `single` be what they
  leave behind, which is in each case the report on the file.
* An unlimited output receives the texts of the single sessions one after the other, the log is made
  of their logs, and the session fails if one of them does.
* If the output accepts `m` writes only, it receives the first `m` of the texts that are not empty.
  If there are no more, the session goes on as if there was no limit.  Otherwise the error is the
  refused write, and the log is made of the logs for the files before the one that was refused. -/
theorem start_collects (unpack : Unpacker) (schedule schedule' : Schedule) (annotate : Bool)
    (fuel : Nat) (files : String → Except OpenError Source) {arguments names : List String}
    {o : Options} (hparse : (Options.default annotate).parse arguments = .ok (o, names))
    (hne : names ≠ []) :
    (∃ flags, (arguments = flags ++ names ∨ arguments = flags ++ "--" :: names) ∧
      ∀ name, (Options.default annotate).parse (flags ++ ["--", name]) = .ok (o, [name])) ∧
    ∀ alone : String → List String,
      (∀ name ∈ names, (Options.default annotate).parse (alone name) = .ok (o, [name])) →
      let whole room := start unpack schedule annotate fuel files (.withRoom room) arguments
      let single? name := start unpack schedule' annotate fuel files .unlimited (alone name)
      ((∃ name ∈ names, isFound (files name) = false) →
        ∀ room, ∃ s, whole room = some s ∧ s.stdout.text = "" ∧ s.error.isSome = true) ∧
      ((∀ name ∈ names, isFound (files name) = true) →
        ((∃ name ∈ names, single? name = none) → ∀ room, whole room = none) ∧
        ∀ single : String → Session, (∀ name ∈ names, single? name = some (single name)) →
          (∀ name ∈ names, ∃ r, process unpack o fuel name (files name) = some r ∧
            Shows (single name) r) ∧
          (∃ s, whole none = some s ∧ Collects single names s ∧
            s.stdout.text = String.join (names.map fun name => (single name).stdout.text)) ∧
          ∀ m e, ∃ s, whole (some ⟨m, e⟩) = some s ∧ CollectsWithin single names m e s) := by
  refine ⟨?_, fun alone halone => ?_⟩
  · obtain ⟨flags, hflags, hparse'⟩ := Options.exists_flags hparse
    exact ⟨flags, hflags, fun name => hparse' [name]⟩
  intro whole single?
  have hwhole (room : Option Room) :
      whole room = processAll unpack schedule o fuel files (.withRoom room) names :=
    start_eq_processAll unpack schedule hparse hne ..
  refine ⟨fun hmissing room => ?_, fun hfound => ?_⟩
  · obtain ⟨name, -, h⟩ := processAll_of_missing unpack schedule hmissing (.withRoom room)
    exact ⟨_, (hwhole room).trans h, rfl, rfl⟩
  have hsingle? : ∀ name ∈ names, single? name =
      (process unpack o fuel name (files name)).map fun r => finish .unlimited 1 [r] := by
    intro name hname
    rw [← processAll_singleton unpack schedule' (hfound name hname)]
    exact start_eq_processAll unpack schedule' (halone name hname) (List.cons_ne_nil _ _) ..
  refine ⟨?_, fun single hsingle => ?_⟩
  · rintro ⟨name, hname, hnone⟩ room
    rw [hsingle? name hname, Option.map_eq_none_iff] at hnone
    rw [hwhole]
    exact processAll_eq_none unpack schedule hfound hname hnone _
  have hreport : ∀ name ∈ names, ∃ r, process unpack o fuel name (files name) = some r ∧
      Shows (single name) r := by
    intro name hname
    obtain ⟨r, hr, hfinish⟩ := Option.map_eq_some_iff.1
      ((hsingle? name hname).symm.trans (hsingle name hname))
    exact ⟨r, hr, hfinish ▸ shows_finish r⟩
  have : Nonempty Report := ⟨⟨"", none⟩⟩
  choose! r hprocess hr using hreport
  have hfinish (room : Option Room) :
      whole room = some (finish (.withRoom room) names.length (names.map r)) :=
    (hwhole room).trans (processAll_eq_finish unpack schedule hfound hprocess _)
  have hroom := Output.hasRoom_withRoom_none (Report.outputs (names.map r)).length
  refine ⟨fun name hname => ⟨r name, hprocess name hname, hr name hname⟩,
    ⟨_, hfinish none, collects_finish hr hroom, ?_⟩,
    fun m e => ⟨_, hfinish _, collectsWithin_finish hr m e⟩⟩
  rw [text_finish_of_hasRoom hroom, Report.join_outputs, map_text_eq hr]

/-- A program of one `nop`, listed between two programs that end within an instruction and come to
their ends before it.  Two of the three files fail, and an output that accepts two writes refuses the
third. -/
theorem start_collects_nop :
    let files name := .ok (.ofBytes (if name = "nop" then [0x90] else [0x90, 0xb8]))
    let last : Schedule := ⟨fun n => (List.finRange n).reverse, fun _ => List.reverse_perm _⟩
    let full : WriteError := ⟨"no space left on device"⟩
    let whole room :=
      start Except.ok last false 0 files (.withRoom room) ["-labels", "-annotate=f", "x", "nop", "-y"]
    (∃ s, whole none = some s ∧
      s.stdout.text = "; x\nbits 16\n\nnop\n; nop\nbits 16\n\nnop\n; -y\nbits 16\n\nnop\n" ∧
      s.error.map SessionError.message = some "2 of 3 files failed") ∧
    ∃ s, whole (some ⟨2, full⟩) = some s ∧
      s.stdout.text = "; x\nbits 16\n\nnop\n; nop\nbits 16\n\nnop\n" ∧
      s.error = some (.write full) ∧
      s.stderr = "sim86: x: failed to decode the instruction at 0x00001 (10111000): " ++
        "truncated instruction\n" := by
  intro files last full whole
  let names := ["x", "nop", "-y"]
  let o : Options := ⟨false, false, true, 65536⟩
  let r (name : String) : Report := ⟨"; " ++ name ++ "\nbits 16\n\nnop\n",
    if name = "nop" then none else some (.labels name ⟨.wrap 1, 0xb8, .truncated⟩)⟩
  let single (name : String) : Session := finish .unlimited 1 [r name]
  have hprocess : ∀ name ∈ names, process Except.ok o 0 name (files name) = some (r name) := by
    decide +kernel
  have hshows : ∀ name ∈ names, Shows (single name) (r name) := fun name _ => shows_finish (r name)
  have hsingle : ∀ name ∈ names, start Except.ok .inTurn false 0 files .unlimited
      ["-labels", "-annotate=f", "--", name] = some (single name) := by
    intro name hname
    have hone : processAll Except.ok .inTurn o 0 files .unlimited [name] = _ :=
      processAll_singleton Except.ok .inTurn rfl
    rw [hprocess name hname] at hone
    exact hone
  obtain ⟨-, h⟩ := start_collects Except.ok last .inTurn false 0 files
    (show (Options.default false).parse ["-labels", "-annotate=f", "x", "nop", "-y"] =
      .ok (o, names) from rfl) (List.cons_ne_nil _ _)
  obtain ⟨-, hall⟩ :=
    (h (fun name => ["-labels", "-annotate=f", "--", name]) fun _ _ => rfl).2 fun _ _ => rfl
  obtain ⟨-, ⟨s, hs, hcollects, htext⟩, hroom⟩ := hall single hsingle
  obtain ⟨s', hs', hwithin⟩ := hroom 2 full
  -- What is left to compute is about the three reports.
  have htexts := map_text_eq hshows
  have houtputs : (names.map r).map Report.output =
      ["; x\nbits 16\n\nnop\n", "; nop\nbits 16\n\nnop\n", "; -y\nbits 16\n\nnop\n"] := by
    decide
  have hfailed : names.countP (fun name => (single name).error.isSome) = 2 := by
    decide +kernel
  have hnonempty : ∀ name ∈ names, (single name).stdout.text ≠ "" := by
    intro name hname
    rw [(hshows name hname).text_eq]
    exact (show ∀ name ∈ names, (r name).output ≠ "" by decide) name hname
  rw [houtputs] at htexts
  refine ⟨⟨s, hs, ?_, ?_⟩, s', hs', ?_, ?_⟩
  · rw [htext, htexts]
    rfl
  · obtain ⟨e, he⟩ := Option.isSome_iff_exists.1 (hcollects.isSome_error_iff.2
      (List.countP_pos_iff.1 (hfailed ▸ Nat.zero_lt_two)))
    rw [he, Option.map_some, hcollects.message_eq e he, hfailed]
    decide +kernel
  · rw [hwithin.text_eq, htexts]
    rfl
  · obtain ⟨herror, before, name, after, hnames, hbefore, -, hstderr⟩ :=
      hwithin.of_refused (by rw [htexts]; decide)
    have hmem : ∀ name ∈ before, name ∈ names := by
      intro name h
      rw [hnames]
      exact List.mem_append_left _ h
    rw [List.filter_eq_self.2 fun name h => decide_eq_true (hnonempty name (hmem name h))] at hbefore
    have htwo : before = ["x", "nop"] := by
      have htake : names.take 2 = before := by
        rw [hnames, ← hbefore, List.take_left]
      exact htake.symm
    refine ⟨herror, ?_⟩
    rw [hstderr, htwo]
    decide +kernel

end Session
end I8086
