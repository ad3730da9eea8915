import I8086.Listing.Output
import I8086.Machine.Execute

/-!
# Running a program

A step decodes and executes the instruction at `cs:ip`, prefixes included. The prefixes are fetched
one at a time; a step that meets nothing but prefixes at all 65536 offsets of its segment would
fetch them forever, and is `endless`.

A run is a sequence of steps. It ends when the program halts, when `ip` leaves the program, at an
error or after a number of steps. A run without a limit is given fuel instead, and `starved` says
that the fuel did not last.
-/

set_option autoImplicit false

namespace I8086

/-- Why a step failed. -/
inductive StepError
  | decode (e : DecodeError)
  | unsupported (u : Unsupported)
  deriving DecidableEq, Repr

def StepError.message : StepError → String
  | decode e => e.message
  | unsupported u => u.message

inductive StepResult
  | executed (i : Instruction)
  /-- The step failed at this instruction, which is empty if none was decoded. -/
  | failed (i : Instruction) (e : StepError)
  | fault (f : Fault)
  /-- Nothing but prefixes. -/
  | endless
  deriving DecidableEq, Repr

/-- Why a run failed. -/
inductive RunError
  | step (e : StepError)
  /-- So many instructions were executed, and no more are allowed. -/
  | limit (steps : Nat)
  | trace (e : WriteError)
  deriving DecidableEq, Repr

def RunError.message : RunError → String
  | step e => e.message
  | limit steps => "step limit reached after " ++ Text.decimal steps ++ " instructions"
  | trace e => "failed to write the trace: " ++ e.message

inductive RunResult
  | finished
  | failed (e : RunError)
  | fault (f : Fault)
  /-- A step met nothing but prefixes. -/
  | endless
  /-- The fuel of a run without a limit did not last. -/
  | starved
  deriving DecidableEq, Repr

namespace Machine

/-- Where the next instruction is fetched. -/
def cursor (m : Machine) : Cursor :=
  ⟨m.registers.word .cs, m.ip⟩

/-- What was fetched at `cs:ip`. -/
inductive Fetch
  /-- A prefix; the machine waits for its instruction. -/
  | prefixed (m : Machine)
  /-- An instruction that starts at offset `ip`; the machine stands behind it. -/
  | ready (i : Instruction) (ip : UInt16) (m : Machine)
  | failed (i : Instruction) (e : DecodeError) (m : Machine)

/-- Decodes at `cs:ip` and moves `ip` behind what was decoded, unless it reaches beyond the
program. The prefixes count as taken in any case. -/
def fetch (m : Machine) : Fetch :=
  match decodeOne m.pending m.image m.cursor with
  | .error cause => .failed .empty (.ofCursor m.image m.cursor cause) m
  | .ok x =>
    let i := x.instruction
    let m' := { m with pending := x.pending }
    if m.ip.toUInt32 + i.size > m.size then
      .failed i (.ofCursor m.image m.cursor .truncated) m'
    else if i.isPrefix then .prefixed (m'.setIp x.cursor.offset)
    else .ready i m.ip (m'.setIp x.cursor.offset)

/-- All that a fetch can do. -/
theorem fetch_cases (m : Machine) :
    (∃ i e pending, m.fetch = .failed i e { m with pending }) ∨
      ∃ x, decodeOne m.pending m.image m.cursor = .ok x ∧
        m.fetch =
          if x.instruction.isPrefix then
            .prefixed ({ m with pending := x.pending }.setIp x.cursor.offset)
          else .ready x.instruction m.ip ({ m with pending := x.pending }.setIp x.cursor.offset) := by
  rw [fetch]
  cases decodeOne m.pending m.image m.cursor with
  | error cause => exact .inl ⟨_, _, m.pending, rfl⟩
  | ok x =>
    by_cases hsize : m.ip.toUInt32 + x.instruction.size > m.size
    · simp only [if_pos hsize]
      exact .inl ⟨_, _, x.pending, rfl⟩
    · simp only [if_neg hsize]
      exact .inr ⟨x, rfl, rfl⟩

/-- A step that may fetch `n` times. -/
def stepWithin : Nat → Machine → StepResult × Machine
  | 0, m => (.endless, m)
  | n + 1, m =>
    match m.fetch with
    | .prefixed m => stepWithin n m
    | .failed i e m => (.failed i (.decode e), m)
    | .ready i ip m =>
      match m.execute i ip with
      | (none, m) => (.executed i, m)
      | (some (.unsupported u), m) => (.failed i (.unsupported u), m)
      | (some (.fault f), m) => (.fault f, m)

/-- Executes the instruction at `cs:ip`. Every prefix has one byte, so after 65536 of them all
offsets of the segment were fetched and the next fetch would be the first one again. -/
def step (m : Machine) : StepResult × Machine :=
  m.stepWithin 65536

/-- Whether `steps` instructions are all that may be executed. -/
def limitReached (m : Machine) (steps : Nat) : Bool :=
  0 < m.maxSteps && m.maxSteps ≤ steps

/-- The line of an executed instruction in a trace. -/
def traceLine (i : Instruction) (before after : Registers) : String :=
  i.render ++ " ;" ++ Registers.changes before after

/-- Writes a line of a trace, if there is one. -/
def record (trace : Option Output) (line : String) : Option WriteError × Option Output :=
  match trace with
  | none => (none, none)
  | some o =>
    let (e, o) := o.writeLine line
    (e, some o)

/-- Runs after `steps` instructions; every further one uses up fuel. -/
def runFrom : Nat → Nat → Machine → Option Output → RunResult × Machine × Option Output
  | fuel, steps, m, trace =>
    if m.done then (.finished, m, trace)
    else if m.limitReached steps then (.failed (.limit steps), m, trace)
    else
      match fuel with
      | 0 => (.starved, m, trace)
      | fuel + 1 =>
        let before := m.registers
        match m.step with
        | (.failed _ e, m') => (.failed (.step e), m', trace)
        | (.fault f, m') => (.fault f, m', trace)
        | (.endless, m') => (.endless, m', trace)
        | (.executed i, m') =>
          match record trace (traceLine i before m'.registers) with
          | (some e, trace) => (.failed (.trace e), m', trace)
          | (none, trace) =>
            if i.operation = .hlt then (.finished, m', trace)
            else runFrom fuel (steps + 1) m' trace

/-- Runs a program and writes a line for every instruction that was executed. The fuel is for runs
without a limit; others have as much as their limit allows. -/
def run (m : Machine) (fuel : Nat) (trace : Option Output) :
    RunResult × Machine × Option Output :=
  runFrom (if 0 < m.maxSteps then m.maxSteps.toNat else fuel) 0 m trace

end Machine
end I8086
