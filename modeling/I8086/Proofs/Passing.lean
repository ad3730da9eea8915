import I8086.Proofs.Contiguous
import I8086.Proofs.Coverage
import I8086.Proofs.Straight
import I8086.Proofs.Termination

/-!
# The way of a step

A step passes the prefixes in front of an instruction, one fetch for each of them, and then makes
its last fetch, which fails or gives the instruction to execute.

* `Machine.leading` is the list of the prefixes that a step passes, and `Machine.passed` what they
  leave waiting, together with what waited before.
* `Machine.behind` is the machine behind them.  Only `ip` and what waits have changed.
* `Machine.Ends` lists the ways in which the last fetch can end a step, and `Machine.ends_of_step`
  says that a step ends in one of these ways behind its prefixes.
-/

set_option autoImplicit false

namespace I8086

open Instruction

/-- What waits once prefixes were decoded, one after the other. -/
def Pending.joinAll (p : Pending) (bytes : List UInt8) : Pending := bytes.foldl join p

theorem Pending.OfRun.joinAll {p : Pending} (h : p.OfRun) (bytes : List UInt8) :
    (p.joinAll bytes).OfRun := by
  induction bytes generalizing p with
  | nil => exact h
  | cons b bytes ih => exact ih (h.join b)

namespace Machine

/-! ## The prefixes in front -/

/-- The prefixes that a step passes if it may fetch `n` times. -/
def leadingWithin : Nat → Machine → List Instruction
  | 0, _ => []
  | n + 1, m =>
    match m.fetch, decodeOne m.pending m.image m.cursor with
    | .prefixed m', .ok x => x.instruction :: leadingWithin n m'
    | _, _ => []

/-- The prefixes that a step passes. -/
def leading (m : Machine) : List Instruction := m.leadingWithin 65536

theorem leadingWithin_of_prefixAt {m : Machine} (h : m.PrefixAt 0) (n : Nat) :
    ∃ i : Instruction, i.isPrefix = true ∧ i.size = 1 ∧
      m.leadingWithin (n + 1) = i :: m.passPrefix.leadingWithin n := by
  obtain ⟨x, hx, hp, hsize, -⟩ := decodeOne_of_mem_bytes m.pending (m.prefixAt_zero.1 h).1
  refine ⟨x.instruction, hp, hsize, ?_⟩
  rw [leadingWithin, fetch_prefixed_of_prefixAt h, hx]

theorem leadingWithin_of_not_prefixAt {m : Machine} (h : ¬ m.PrefixAt 0) (n : Nat) :
    m.leadingWithin n = [] := by
  cases n with
  | zero => rfl
  | succ n =>
    rw [leadingWithin]
    split
    · rename_i hfetch _
      exact absurd hfetch (fetch_ne_prefixed_of_not_prefixAt h _)
    · rfl

theorem isPrefix_of_mem_leadingWithin {n : Nat} {m : Machine} {i : Instruction}
    (h : i ∈ m.leadingWithin n) : i.isPrefix = true := by
  induction n generalizing m with
  | zero => cases h
  | succ n ih =>
    by_cases hp : m.PrefixAt 0
    · obtain ⟨j, hj, -, hleading⟩ := leadingWithin_of_prefixAt hp n
      rw [hleading] at h
      rcases List.mem_cons.1 h with rfl | h
      · exact hj
      · exact ih h
    · rw [leadingWithin_of_not_prefixAt hp] at h
      cases h

/-- Each of them has one byte. -/
theorem total_leadingWithin (n : Nat) (m : Machine) :
    total (m.leadingWithin n) = (m.leadingWithin n).length := by
  induction n generalizing m with
  | zero => rfl
  | succ n ih =>
    by_cases hp : m.PrefixAt 0
    · obtain ⟨j, -, hsize, hleading⟩ := leadingWithin_of_prefixAt hp n
      rw [hleading, total_cons, hsize, ih, List.length_cons, Nat.add_comm]
      rfl
    · rw [leadingWithin_of_not_prefixAt hp]
      rfl

/-! ## The machine behind them -/

/-- The machine `k` bytes further on, if all of them are prefixes. -/
def behind (m : Machine) (k : Nat) : Machine :=
  { m with pending := m.pending.joinAll (m.image.stretch m.cursor k) }.setIp (m.ip + UInt16.ofNat k)

theorem behind_zero (m : Machine) : m.behind 0 = m := by
  rw [behind, show m.ip + UInt16.ofNat 0 = m.ip from UInt16.add_zero _]
  exact m.setIp_ip

theorem behind_succ (m : Machine) (k : Nat) : m.behind (k + 1) = m.passPrefix.behind k := by
  have hip : m.passPrefix.ip = m.ip + 1 := ip_setIp ..
  have hbytes : m.image.stretch m.cursor (k + 1) =
      m.image.get m.cursor.address :: m.image.stretch (m.cursor.advance 1) k := by
    rw [Nat.add_comm, Image.stretch_add]
    rfl
  have hoffset : m.ip + .ofNat (k + 1) = m.ip + 1 + .ofNat k := by
    rw [Nat.add_comm, UInt16.ofNat_add, UInt16.add_assoc]
    rfl
  rw [behind, behind, hbytes, cursor_passPrefix, hip, hoffset, passPrefix]
  exact (setIp_setIp ..).symm

theorem ip_behind (m : Machine) (k : Nat) : (m.behind k).ip = m.ip + .ofNat k := ip_setIp ..

theorem word_behind (m : Machine) (k : Nat) {x : Register} (hx : x ≠ .ip) :
    (m.behind k).registers.word x = m.registers.word x :=
  m.registers.word_setWord_of_ne hx.symm _

/-- A step goes on behind the prefixes as if it had started there, and passes no more of them. -/
theorem stepWithin_behind {n : Nat} {m : Machine} (h : (m.stepWithin n).1 ≠ .endless) :
    m.stepWithin n = (m.behind (m.leadingWithin n).length).stepWithin 1 ∧
      ¬ (m.behind (m.leadingWithin n).length).PrefixAt 0 := by
  induction n generalizing m with
  | zero => exact absurd rfl h
  | succ n ih =>
    by_cases hp : m.PrefixAt 0
    · obtain ⟨i, -, -, hleading⟩ := leadingWithin_of_prefixAt hp n
      rw [stepWithin_of_prefixAt hp] at h ⊢
      rw [hleading, List.length_cons, behind_succ]
      exact ih h
    · obtain ⟨r, -, -, hn⟩ := stepWithin_of_not_prefixAt hp
      rw [leadingWithin_of_not_prefixAt hp, List.length_nil, behind_zero, hn n, hn 0]
      exact ⟨rfl, hp⟩

/-! ## The last fetch -/

/-- The machine before it executes what was decoded. -/
def ready (m : Machine) (x : Decoded) : Machine :=
  { m with pending := x.pending }.setIp x.cursor.offset

/-- `ip` moves behind what was decoded. -/
theorem ip_ready {m : Machine} {x : Decoded} (hx : decodeOne m.pending m.image m.cursor = .ok x) :
    (m.ready x).ip = m.ip + x.instruction.size.toUInt16 := by
  rw [ready, ip_setIp, cursor_of_decodeWithin hx]
  rfl

theorem word_ready (m : Machine) (x : Decoded) {r : Register} (hr : r ≠ .ip) :
    (m.ready x).registers.word r = m.registers.word r :=
  m.registers.word_setWord_of_ne hr.symm _

/-- How a step ends that passes no prefix. -/
inductive Ends (m : Machine) : StepResult → Machine → Prop
  | unrecognized (h : decodeOne m.pending m.image m.cursor = .error .unrecognized) :
      Ends m (.failed .empty (.decode (.ofCursor m.image m.cursor .unrecognized))) m
  | truncated {x : Decoded} (hx : decodeOne m.pending m.image m.cursor = .ok x)
      (hsize : m.ip.toUInt32 + x.instruction.size > m.size) :
      Ends m (.failed x.instruction (.decode (.ofCursor m.image m.cursor .truncated)))
        { m with pending := x.pending }
  | executed {x : Decoded} {m' : Machine} (hx : decodeOne m.pending m.image m.cursor = .ok x)
      (hp : x.instruction.isPrefix = false)
      (h : (m.ready x).execute x.instruction m.ip = (none, m')) :
      Ends m (.executed x.instruction) m'
  | unsupported {x : Decoded} {u : Unsupported} {m' : Machine}
      (hx : decodeOne m.pending m.image m.cursor = .ok x) (hp : x.instruction.isPrefix = false)
      (h : (m.ready x).execute x.instruction m.ip = (some (.unsupported u), m')) :
      Ends m (.failed x.instruction (.unsupported u)) m'
  | fault {x : Decoded} {f : Fault} {m' : Machine}
      (hx : decodeOne m.pending m.image m.cursor = .ok x) (hp : x.instruction.isPrefix = false)
      (h : (m.ready x).execute x.instruction m.ip = (some (.fault f), m')) : Ends m (.fault f) m'

theorem ends_of_not_prefixAt {m : Machine} (h : ¬ m.PrefixAt 0) :
    m.Ends (m.stepWithin 1).1 (m.stepWithin 1).2 := by
  have hne := fetch_ne_prefixed_of_not_prefixAt h
  rw [stepWithin]
  rw [fetch] at hne ⊢
  cases hx : decodeOne m.pending m.image m.cursor with
  | error cause =>
    obtain rfl := cause_of_decodeOne hx
    exact .unrecognized hx
  | ok x =>
    rw [hx] at hne
    dsimp only at hne ⊢
    by_cases hsize : m.ip.toUInt32 + x.instruction.size > m.size
    · rw [if_pos hsize]
      exact .truncated hx hsize
    · rw [if_neg hsize] at hne ⊢
      cases hp : x.instruction.isPrefix with
      | true =>
        rw [hp] at hne
        exact absurd rfl (hne _)
      | false =>
        rw [if_neg Bool.false_ne_true]
        dsimp only
        rw [← ready]
        rcases hexecute : (m.ready x).execute x.instruction m.ip with ⟨_ | u | f, m'⟩
        · exact .executed hx hp hexecute
        · exact .unsupported hx hp hexecute
        · exact .fault hx hp hexecute

theorem exists_step_eq {m : Machine} {r : StepResult} (h : m.step.1 = r) :
    ∃ m', m.step = (r, m') :=
  ⟨m.step.2, Prod.ext h rfl⟩

/-- What the prefixes that a step passes leave waiting, together with what waited before. -/
def passed (m : Machine) : Pending :=
  m.pending.joinAll (m.image.stretch m.cursor (total m.leading))

theorem ofRun_passed {m : Machine} {calls : List (Image × Cursor)}
    (hm : m.pending = Pending.clear.through calls) : m.passed.OfRun := by
  have hpending : m.pending.OfRun := hm ▸ .through calls
  exact hpending.joinAll _

theorem pending_behind_leading (m : Machine) : (m.behind (total m.leading)).pending = m.passed :=
  rfl

/-- **Every step that ends** does so in one of these ways, behind its prefixes. -/
theorem ends_of_step {m m' : Machine} {r : StepResult} (h : m.step = (r, m')) (hr : r ≠ .endless) :
    (m.behind (total m.leading)).Ends r m' := by
  have hends : (m.stepWithin 65536).1 ≠ .endless := by
    rw [show m.stepWithin 65536 = (r, m') from h]
    exact hr
  obtain ⟨hstep, hp⟩ := stepWithin_behind hends
  rw [← total_leadingWithin] at hstep hp
  have hlast := ends_of_not_prefixAt hp
  rwa [← hstep, show m.stepWithin 65536 = (r, m') from h] at hlast

end Machine
end I8086
