import I8086.Proofs.Termination

/-!
# Runs that are cut off

A run with a limit stops between two steps.  It looks at three things there, in this order: whether
`ip` has left the program, whether the limit is reached, and, after the step, whether it was a halt.
A run that was cut off can be resumed, and together the parts are the run that was not.

* `Machine.step_withLimit` says that a step does not see the limit.
* `Machine.course` is what a number of steps come to, without a limit and without a trace, and with
  a record of every step.  `Machine.run_eq_course` says that a run with a limit is its course.
* `Machine.course_add` cuts a course in two.
-/

set_option autoImplicit false

namespace I8086
namespace Machine

/-! ## Steps do not see the limit -/

/-- The machine with another limit. -/
def withLimit (m : Machine) (limit : Nat) : Machine := { m with maxSteps := limit }

/-- The same fetch, with the machine changed. -/
def Fetch.map (f : Machine → Machine) : Fetch → Fetch
  | prefixed m => prefixed (f m)
  | ready i ip m => ready i ip (f m)
  | failed i e m => failed i e (f m)

section WithLimit

variable (m : Machine) (n : Nat)

theorem write_withLimit (x : Option Operand) (width : UInt8) (value : UInt32) :
    (m.withLimit n).write x width value = (m.write x width value).map id (·.withLimit n) := by
  rw [write.eq_def, write.eq_def]
  split
  · rename_i part
    rw [show (m.withLimit n).registers = m.registers from rfl]
    cases m.registers.set? part value.toUInt16 with
    | ok registers => rfl
    | error f => rfl
  · rename_i place
    rw [show (m.withLimit n).addressOf place = m.addressOf place from rfl]
    cases m.addressOf place with
    | error f => rfl
    | ok a =>
      dsimp only
      split <;> rfl
  · rfl

theorem jump_withLimit (i : Instruction) (ip : UInt16) (taken : Bool) :
    (m.withLimit n).jump i ip taken = (m.jump i ip taken).map id (·.withLimit n) := by
  rw [jump, jump]
  cases taken with
  | false => rfl
  | true =>
    rw [if_pos rfl, if_pos rfl]
    split <;> rfl

theorem move_withLimit (i : Instruction) :
    (m.withLimit n).move i = (m.move i).map id (·.withLimit n) := by
  have hread : (m.withLimit n).read = m.read := rfl
  rw [move, move, hread]
  cases m.read i i.operands.second (width i i.operands.first) with
  | error f => rfl
  | ok value => exact write_withLimit ..

theorem arithmetic_withLimit (i : Instruction) (subtract store : Bool) :
    (m.withLimit n).arithmetic i subtract store =
      (m.arithmetic i subtract store).map id (·.withLimit n) := by
  have hread : (m.withLimit n).read = m.read := rfl
  rw [arithmetic, arithmetic, hread]
  cases m.read i i.operands.first (width i i.operands.first) with
  | error f => rfl
  | ok a =>
    cases m.read i i.operands.second (width i i.operands.first) with
    | error f => rfl
    | ok b =>
      cases store with
      | false => rfl
      | true => exact write_withLimit { m with registers := _ } ..

theorem countDown_withLimit (i : Instruction) (ip : UInt16) (holds : Bool) :
    (m.withLimit n).countDown i ip holds = (m.countDown i ip holds).map id (·.withLimit n) :=
  jump_withLimit { m with registers := _ } ..

theorem refuse_withLimit (i : Instruction) (u : Unsupported) :
    (m.withLimit n).refuse i u = (m.refuse i u).map id (·.withLimit n) := by
  rw [refuse, refuse]
  split <;> rfl

theorem execute_withLimit (i : Instruction) (ip : UInt16) :
    (m.withLimit n).execute i ip = (m.execute i ip).map id (·.withLimit n) := by
  rw [execute.eq_def, execute.eq_def]
  split
  · exact move_withLimit ..
  · exact arithmetic_withLimit ..
  · exact arithmetic_withLimit ..
  · exact arithmetic_withLimit ..
  · split
    · exact jump_withLimit ..
    · exact refuse_withLimit ..
  · exact jump_withLimit ..
  · exact countDown_withLimit ..
  · exact countDown_withLimit ..
  · exact countDown_withLimit ..
  · rfl
  · rfl
  · rw [show (m.withLimit n).registers = m.registers from rfl]
    split
    · exact jump_withLimit ..
    · exact refuse_withLimit ..

theorem fetch_withLimit : (m.withLimit n).fetch = m.fetch.map (·.withLimit n) := by
  rw [fetch, fetch, show decodeOne (m.withLimit n).pending (m.withLimit n).image
    (m.withLimit n).cursor = decodeOne m.pending m.image m.cursor from rfl]
  cases decodeOne m.pending m.image m.cursor with
  | error cause => rfl
  | ok x =>
    dsimp only
    rw [apply_ite (Fetch.map _), apply_ite (Fetch.map _)]
    rfl

theorem stepWithin_withLimit (k : Nat) :
    (m.withLimit n).stepWithin k = (m.stepWithin k).map id (·.withLimit n) := by
  induction k generalizing m with
  | zero => rfl
  | succ k ih =>
    rw [stepWithin, stepWithin, fetch_withLimit]
    cases m.fetch with
    | prefixed m' => exact ih m'
    | failed i e m' => rfl
    | ready i ip m' =>
      simp only [Fetch.map, execute_withLimit]
      rcases m'.execute i ip with ⟨_ | u | f, m''⟩ <;> rfl

theorem step_withLimit : (m.withLimit n).step = (m.step).map id (·.withLimit n) :=
  stepWithin_withLimit m n 65536

end WithLimit

/-! ## The course of a run -/

/-- A step that was taken. -/
structure Taken where
  before : Machine
  result : StepResult
  after : Machine

/-- The line of a step in a trace; only a step that executed something has one. -/
def Taken.line? (t : Taken) : Option String :=
  match t.result with
  | .executed i => some (traceLine i t.before.registers t.after.registers)
  | _ => none

/-- The steps lead from one machine to the other. -/
def Path (m : Machine) : List Taken → Machine → Prop
  | [], m' => m' = m
  | t :: rest, m' => t.before = m ∧ m.step = (t.result, t.after) ∧ Path t.after rest m'

end Machine

/-- What a run ends with after a step, if it does. -/
def StepResult.ends? : StepResult → Option RunResult
  | executed i => if i.operation = .hlt then some .finished else none
  | failed _ e => some (.failed (.step e))
  | fault f => some (.fault f)
  | endless => some .endless

/-- The result of a run that follows `k` steps: the limit counts them. -/
def RunResult.later (k : Nat) : RunResult → RunResult
  | failed (.limit n) => failed (.limit (k + n))
  | r => r

namespace Machine

/-- How far a run has come: what it ended with, unless it can go on, and the steps it has taken. -/
structure Course where
  result? : Option RunResult
  machine : Machine
  steps : List Taken

namespace Course

/-- The course with some steps in front of it. -/
def after (c : Course) (steps : List Taken) : Course := { c with steps := steps ++ c.steps }

/-- The lines of a trace of the course. -/
def lines (c : Course) : List String := c.steps.filterMap Taken.line?

theorem lines_after (c : Course) (steps : List Taken) :
    (c.after steps).lines = steps.filterMap Taken.line? ++ c.lines :=
  List.filterMap_append

end Course

/-- A step and what it leads to. -/
def taken (m : Machine) : Taken := ⟨m, m.step.1, m.step.2⟩

/-- The course of up to `n` steps. -/
def course : Nat → Machine → Course
  | 0, m => ⟨if m.done then some .finished else none, m, []⟩
  | n + 1, m =>
    if m.done then ⟨some .finished, m, []⟩
    else
      match m.step.1.ends? with
      | some result => ⟨some result, m.step.2, [m.taken]⟩
      | none => (course n m.step.2).after [m.taken]

theorem filterMap_line?_taken (m : Machine) :
    [m.taken].filterMap Taken.line? = m.taken.line?.toList := by
  rw [List.filterMap_cons]
  cases m.taken.line? <;> rfl

section Course

variable {m : Machine}

theorem course_of_done (h : m.done = true) (n : Nat) : course n m = ⟨some .finished, m, []⟩ := by
  cases n with
  | zero => rw [course, if_pos h]
  | succ n => rw [course, if_pos h]

theorem course_zero (h : m.done = false) : course 0 m = ⟨none, m, []⟩ := by
  rw [course, h]
  rfl

theorem course_of_ends {result : RunResult} (h : m.done = false)
    (hends : m.step.1.ends? = some result) (n : Nat) :
    course (n + 1) m = ⟨some result, m.step.2, [m.taken]⟩ := by
  rw [course, h, if_neg Bool.false_ne_true, hends]

theorem course_of_goes (h : m.done = false) (hends : m.step.1.ends? = none) (n : Nat) :
    course (n + 1) m = (course n m.step.2).after [m.taken] := by
  rw [course, h, if_neg Bool.false_ne_true, hends]

end Course

/-- What holds of machines that are done, of those whose next step is the last one, and of those
that step to one of which it holds, holds of all of them, whatever the number of steps. -/
theorem course_induction {motive : Nat → Machine → Prop}
    (done : ∀ n m, m.done = true → motive n m) (zero : ∀ m, m.done = false → motive 0 m)
    (ends : ∀ n m result, m.done = false → m.step.1.ends? = some result → motive (n + 1) m)
    (goes : ∀ n m, m.done = false → m.step.1.ends? = none → motive n m.step.2 → motive (n + 1) m)
    (n : Nat) (m : Machine) : motive n m := by
  induction n generalizing m with
  | zero =>
    cases hdone : m.done with
    | true => exact done 0 m hdone
    | false => exact zero m hdone
  | succ n ih =>
    cases hdone : m.done with
    | true => exact done _ m hdone
    | false =>
      cases hends : m.step.1.ends? with
      | some result => exact ends n m result hdone hends
      | none => exact goes n m hdone hends (ih m.step.2)

theorem length_steps_le (n : Nat) (m : Machine) : (course n m).steps.length ≤ n := by
  induction n, m using course_induction with
  | done n m h =>
    rw [course_of_done h]
    exact Nat.zero_le n
  | zero m h =>
    rw [course_zero h]
    exact Nat.le_refl 0
  | ends n m result h hends =>
    rw [course_of_ends h hends]
    exact Nat.succ_le_succ (Nat.zero_le n)
  | goes n m h hends ih =>
    rw [course_of_goes h hends]
    exact Nat.succ_le_succ ih

/-- A course that can go on has taken all of its steps. -/
theorem length_steps_of_result?_eq_none {n : Nat} {m : Machine} (h : (course n m).result? = none) :
    (course n m).steps.length = n := by
  induction n, m using course_induction with
  | done n m hdone =>
    rw [course_of_done hdone] at h
    cases h
  | zero m hdone =>
    rw [course_zero hdone]
    rfl
  | ends n m result hdone hends =>
    rw [course_of_ends hdone hends] at h
    cases h
  | goes n m hdone hends ih =>
    rw [course_of_goes hdone hends] at h ⊢
    exact congrArg (· + 1) (ih h)

theorem path_course (n : Nat) (m : Machine) : m.Path (course n m).steps (course n m).machine := by
  induction n, m using course_induction with
  | done n m h =>
    rw [course_of_done h]
    rfl
  | zero m h =>
    rw [course_zero h]
    rfl
  | ends n m result h hends =>
    rw [course_of_ends h hends]
    exact ⟨rfl, rfl, rfl⟩
  | goes n m h hends ih =>
    rw [course_of_goes h hends]
    exact ⟨rfl, rfl, ih⟩

/-- **A course can be cut anywhere.**  If it ends before the cut nothing follows, and otherwise the
rest of it follows. -/
theorem course_add (a b : Nat) (m : Machine) :
    course (a + b) m =
      if (course a m).result?.isSome then course a m
      else (course b (course a m).machine).after (course a m).steps := by
  induction a, m using course_induction with
  | done a m h =>
    rw [course_of_done h, course_of_done h]
    rfl
  | zero m h =>
    rw [course_zero h, Nat.zero_add]
    rfl
  | ends a m result h hends =>
    rw [Nat.add_right_comm, course_of_ends h hends, course_of_ends h hends]
    rfl
  | goes a m h hends ih =>
    rw [Nat.add_right_comm, course_of_goes h hends, course_of_goes h hends, ih,
      apply_ite (Course.after · [m.taken])]
    rfl

/-- The course with another limit in all of its machines. -/
def Course.withLimit (c : Course) (n : Nat) : Course :=
  ⟨c.result?, c.machine.withLimit n,
    c.steps.map fun t => ⟨t.before.withLimit n, t.result, t.after.withLimit n⟩⟩

/-- A course does not see the limit either. -/
theorem course_withLimit (k n : Nat) (m : Machine) :
    course k (m.withLimit n) = (course k m).withLimit n := by
  have hstep : ∀ m : Machine, (m.withLimit n).step = (m.step.1, m.step.2.withLimit n) :=
    fun m => m.step_withLimit n
  have hdone : ∀ m : Machine, (m.withLimit n).done = m.done := fun _ => rfl
  induction k, m using course_induction with
  | done k m h =>
    rw [course_of_done h, course_of_done ((hdone m).trans h)]
    rfl
  | zero m h =>
    rw [course_zero h, course_zero ((hdone m).trans h)]
    rfl
  | ends k m result h hends =>
    rw [course_of_ends h hends, course_of_ends ((hdone m).trans h) (by rw [hstep]; exact hends),
      taken, hstep]
    rfl
  | goes k m h hends ih =>
    rw [course_of_goes h hends, course_of_goes ((hdone m).trans h) (by rw [hstep]; exact hends),
      taken, hstep]
    exact congrArg (Course.after · _) ih

theorem lines_withLimit (c : Course) (n : Nat) : (c.withLimit n).lines = c.lines := by
  rw [Course.lines, Course.withLimit, List.filterMap_map]
  rfl

/-- The limit is none of the ends of a course. -/
theorem course_result?_ne_limit (n : Nat) (m : Machine) (k : Nat) :
    (course n m).result? ≠ some (.failed (.limit k)) := by
  induction n, m using course_induction with
  | done n m h =>
    rw [course_of_done h]
    exact nofun
  | zero m h =>
    rw [course_zero h]
    exact nofun
  | ends n m result h hends =>
    rw [course_of_ends h hends]
    rintro ⟨⟩
    cases hstep : m.step.1 with
    | executed i =>
      rw [hstep, StepResult.ends?] at hends
      split at hends <;> cases hends
    | _ =>
      rw [hstep] at hends
      cases hends
  | goes n m h hends ih =>
    rw [course_of_goes h hends]
    exact ih

/-! ## Runs -/

/-- The trace with some lines more. -/
def extend (trace : Option Output) (lines : List String) : Option Output :=
  trace.map fun o => { o with pieces := o.pieces ++ (lines.map (· ++ "\n")).toArray }

/-- No line is refused. -/
def Accepts (trace : Option Output) : Prop := ∀ o ∈ trace, o.room = none

section Trace

variable {trace : Option Output}

theorem extend_nil (trace : Option Output) : extend trace [] = trace := by
  cases trace with
  | none => rfl
  | some o => simp [extend]

theorem extend_extend (trace : Option Output) (lines lines' : List String) :
    extend (extend trace lines) lines' = extend trace (lines ++ lines') := by
  cases trace with
  | none => rfl
  | some o => simp [extend]

theorem Accepts.extend (h : Accepts trace) (lines : List String) :
    Accepts (Machine.extend trace lines) := by
  intro o ho
  obtain ⟨o', ho', rfl⟩ := Option.map_eq_some_iff.1 ho
  exact h o' ho'

theorem Accepts.record_eq (h : Accepts trace) (line : String) :
    record trace line = (none, Machine.extend trace [line]) := by
  cases trace with
  | none => rfl
  | some o =>
    have hroom : o.room = none := h o rfl
    rw [record, Output.writeLine, Output.write, hroom]
    simp [Machine.extend, hroom]

end Trace

section RunFrom

variable {n steps : Nat} {m : Machine} {trace : Option Output}

theorem runFrom_of_done (h : m.done = true) : runFrom n steps m trace = (.finished, m, trace) := by
  cases n with
  | zero => rw [runFrom, if_pos h]
  | succ n => rw [runFrom, if_pos h]

theorem runFrom_zero (hdone : m.done = false) (hreached : m.limitReached steps = true) :
    runFrom 0 steps m trace = (.failed (.limit steps), m, trace) := by
  rw [runFrom, hdone, if_neg Bool.false_ne_true, if_pos hreached]

/-- One round of a run. -/
theorem runFrom_succ (hdone : m.done = false) (hreached : m.limitReached steps = false)
    (htrace : Accepts trace) :
    runFrom (n + 1) steps m trace =
      match m.step.1.ends? with
      | some result => (result, m.step.2, extend trace m.taken.line?.toList)
      | none => runFrom n (steps + 1) m.step.2 (extend trace m.taken.line?.toList) := by
  rw [runFrom, hdone, hreached, taken]
  rcases m.step with ⟨r, m'⟩
  cases r with
  | executed i =>
    simp only [htrace.record_eq, StepResult.ends?]
    by_cases hhlt : i.operation = .hlt
    · simp only [if_pos hhlt]
      rfl
    · simp only [if_neg hhlt]
      rfl
  | failed i e => exact congrArg (fun t => (_, _, t)) (extend_nil trace).symm
  | fault f => exact congrArg (fun t => (_, _, t)) (extend_nil trace).symm
  | endless => exact congrArg (fun t => (_, _, t)) (extend_nil trace).symm

theorem limitReached_eq (hlimit : m.maxSteps = ((steps + n : Nat) : Int)) (hpos : 0 < m.maxSteps) :
    m.limitReached steps = decide (n = 0) := by
  rw [limitReached, decide_eq_true hpos, Bool.true_and, hlimit]
  exact decide_eq_decide.2 (by omega)

/-- A run that has `n` steps left is a course of `n` steps. -/
theorem runFrom_eq_course (hlimit : m.maxSteps = ((steps + n : Nat) : Int)) (hpos : 0 < m.maxSteps)
    (htrace : Accepts trace) :
    runFrom n steps m trace =
      ((course n m).result?.getD (.failed (.limit (steps + n))), (course n m).machine,
        extend trace (course n m).lines) := by
  induction n, m using course_induction generalizing steps trace with
  | done n m h =>
    rw [runFrom_of_done h, course_of_done h]
    exact congrArg (fun t => (_, _, t)) (extend_nil trace).symm
  | zero m h =>
    rw [runFrom_zero h (limitReached_eq hlimit hpos), course_zero h]
    exact congrArg (fun t => (_, _, t)) (extend_nil trace).symm
  | ends n m result h hends =>
    rw [runFrom_succ h (limitReached_eq hlimit hpos) htrace, hends, course_of_ends h hends]
    exact congrArg (fun l => (_, _, extend trace l)) (filterMap_line?_taken m).symm
  | goes n m h hends ih =>
    have hsame := (m.sameSettings_stepWithin 65536).1.maxSteps_eq
    have hlimit' : m.step.2.maxSteps = ((steps + 1 + n : Nat) : Int) := by
      rw [show m.step.2.maxSteps = m.maxSteps from hsame, hlimit, Nat.add_right_comm]
      rfl
    rw [runFrom_succ h (limitReached_eq hlimit hpos) htrace, hends, course_of_goes h hends]
    dsimp only
    rw [ih hlimit' (hsame ▸ hpos) (htrace.extend _), extend_extend, Course.lines_after,
      filterMap_line?_taken, Nat.add_right_comm]
    rfl

end RunFrom

/-- A run with a limit is its course.  A course that can go on has come to the limit. -/
theorem run_eq_course (m : Machine) {k : Nat} (hk : 0 < k) (fuel : Nat) {trace : Option Output}
    (htrace : Accepts trace) :
    (m.withLimit k).run fuel trace =
      ((course k m).result?.getD (.failed (.limit k)), (course k m).machine.withLimit k,
        extend trace (course k m).lines) := by
  have hpos : 0 < (m.withLimit k).maxSteps := Int.natCast_pos.2 hk
  have hfuel : (m.withLimit k).maxSteps.toNat = k := Int.toNat_natCast k
  rw [run, if_pos hpos, hfuel, runFrom_eq_course (congrArg _ (Nat.zero_add k).symm) hpos htrace,
    course_withLimit, Nat.zero_add]
  exact congrArg (fun l => (_, _, extend trace l)) (lines_withLimit _ k)

/-- A trace that is empty so far, if there is to be one. -/
def newTrace (traced : Bool) : Option Output := if traced then some .unlimited else none

theorem accepts_newTrace (traced : Bool) : Accepts (newTrace traced) := by
  cases traced with
  | false => exact nofun
  | true =>
    rintro o ⟨⟩
    rfl

/-- The text of a trace. -/
def traceText (trace : Option Output) : String := (trace.map Output.text).getD ""

/-- The traces of two parts are the trace of the whole. -/
theorem traceText_extend_append (traced : Bool) (lines lines' : List String) :
    traceText (extend (newTrace traced) (lines ++ lines')) =
      traceText (extend (newTrace traced) lines) ++
        traceText (extend (newTrace traced) lines') := by
  cases traced with
  | false => rfl
  | true =>
    simp [traceText, extend, newTrace, Output.text, Output.unlimited]

theorem later_getD {r : Option RunResult} (h : ∀ n, r ≠ some (.failed (.limit n))) (k j : Nat) :
    (r.getD (.failed (.limit j))).later k = r.getD (.failed (.limit (k + j))) := by
  cases r with
  | none => rfl
  | some r =>
    rw [Option.getD_some, Option.getD_some, RunResult.later.eq_def]
    split
    · exact absurd rfl (h _)
    · rfl

theorem getD_limit_eq_iff {r : Option RunResult} (h : ∀ n, r ≠ some (.failed (.limit n)))
    {k n : Nat} : r.getD (.failed (.limit k)) = .failed (.limit n) ↔ r = none ∧ n = k := by
  cases r with
  | none => simp [eq_comm]
  | some r =>
    have hr : r ≠ .failed (.limit n) := fun he => h n (congrArg some he)
    simp [hr]

/-- **A run that was cut off by its limit can be resumed.**  It has taken at most as many steps as
the limit allows.  If the limit ended it, it has taken exactly so many, and a second run from where
it stopped ends as the run with both limits added does: with the same machine, with the same result
but for the number of steps that it reports, and the two traces one after the other are the trace of
the long run.  If anything else ended it, a higher limit changes nothing. -/
theorem run_resumes (m : Machine) {k j : Nat} (hk : 0 < k) (hj : 0 < j) (fuel : Nat)
    (traced : Bool) :
    let first := (m.withLimit k).run fuel (newTrace traced)
    let second := (first.2.1.withLimit j).run fuel (newTrace traced)
    let whole := (m.withLimit (k + j)).run fuel (newTrace traced)
    (∃ steps, (m.withLimit k).Path steps first.2.1 ∧ steps.length ≤ k ∧
        first.2.2 = extend (newTrace traced) (steps.filterMap Taken.line?) ∧
        ∀ n, first.1 = .failed (.limit n) → steps.length = k ∧ n = k) ∧
      ((∃ n, first.1 = .failed (.limit n)) →
        whole.1 = second.1.later k ∧ whole.2.1 = second.2.1.withLimit (k + j) ∧
          traceText whole.2.2 = traceText first.2.2 ++ traceText second.2.2) ∧
      ((∀ n, first.1 ≠ .failed (.limit n)) →
        whole.1 = first.1 ∧ whole.2.1 = first.2.1.withLimit (k + j) ∧
          whole.2.2 = first.2.2) := by
  intro first second whole
  have hfirst : first = _ := run_eq_course m hk fuel (accepts_newTrace traced)
  have hwhole : whole = _ := run_eq_course m (Nat.add_pos_left hk j) fuel (accepts_newTrace traced)
  have hlimit := course_result?_ne_limit k m
  have hcut := course_add k j m
  refine ⟨⟨(course k (m.withLimit k)).steps, ?_, length_steps_le k _, ?_, ?_⟩, ?_, ?_⟩
  · rw [hfirst]
    have hpath := path_course k (m.withLimit k)
    rwa [course_withLimit] at hpath ⊢
  · rw [hfirst, course_withLimit]
    exact congrArg (extend _) (lines_withLimit _ k).symm
  · intro n hn
    rw [hfirst, getD_limit_eq_iff hlimit] at hn
    have hnone : (course k (m.withLimit k)).result? = none := by
      rw [course_withLimit]
      exact hn.1
    exact ⟨length_steps_of_result?_eq_none hnone, hn.2⟩
  · rintro ⟨n, hn⟩
    rw [hfirst, getD_limit_eq_iff hlimit] at hn
    have hstart : first.2.1.withLimit j = (course k m).machine.withLimit j := by
      rw [hfirst]
      rfl
    have hsecond : second = _ :=
      (congrArg (·.run fuel (newTrace traced)) hstart).trans
        (run_eq_course _ hj fuel (accepts_newTrace traced))
    rw [hn.1, Option.isSome_none, if_neg Bool.false_ne_true] at hcut
    rw [hwhole, hsecond, hfirst, hcut, later_getD (course_result?_ne_limit j _),
      Course.lines_after]
    exact ⟨rfl, rfl, traceText_extend_append traced _ _⟩
  · intro hn
    have hsome : (course k m).result?.isSome = true := by
      rw [Option.isSome_iff_ne_none]
      intro hnone
      rw [hfirst] at hn
      exact hn k ((getD_limit_eq_iff hlimit).2 ⟨hnone, rfl⟩)
    rw [if_pos hsome] at hcut
    obtain ⟨result, hresult⟩ := Option.isSome_iff_exists.1 hsome
    rw [hwhole, hfirst, hcut, hresult]
    exact ⟨rfl, rfl, rfl⟩

/-- Two jumps and a halt.  Cut after the first jump, the second run halts with its last step; a
limit of three lets all of it run, because the halt is seen before the limit. -/
theorem run_resumes_two_jumps_halt :
    let m := new (Image.zero.setRange 0 [0xEB, 0x00, 0xEB, 0x00, 0xF4]) 5
    let trace := newTrace true
    let first := (m.withLimit 1).run 0 trace
    let second := (first.2.1.withLimit 2).run 0 trace
    let whole := (m.withLimit 3).run 0 trace
    first.1 = .failed (.limit 1) ∧ second.1 = .finished ∧ whole.1 = .finished ∧
      whole.2.1 = second.2.1.withLimit 3 ∧
      traceText whole.2.2 = traceText first.2.2 ++ traceText second.2.2 ∧
      (m.withLimit 5).run 0 trace = (.finished, whole.2.1.withLimit 5, whole.2.2) := by
  intro m trace first second whole
  have hruns : first.1 = .failed (.limit 1) ∧ second.1 = .finished ∧ whole.1 = .finished := by
    decide +kernel
  obtain ⟨hfirst, hsecond, hwhole⟩ := hruns
  obtain ⟨-, hlimit, -⟩ := run_resumes m (k := 1) (j := 2) (by decide) (by decide) 0 true
  obtain ⟨-, hmachine, htrace⟩ := hlimit ⟨1, hfirst⟩
  obtain ⟨-, -, hother⟩ := run_resumes m (k := 3) (j := 2) (by decide) (by decide) 0 true
  obtain ⟨hresult', hmachine', htrace'⟩ := hother fun n hn => nomatch hwhole.symm.trans hn
  exact ⟨hfirst, hsecond, hwhole, hmachine, htrace,
    Prod.ext (hresult'.trans hwhole) (Prod.ext hmachine' htrace')⟩

end Machine
end I8086
