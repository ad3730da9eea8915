import I8086.Proofs.Effects
import I8086.Proofs.Packing
import I8086.Proofs.Prefixes

/-!
# When a step ends

A step fetches prefixes until it meets an instruction or an error.  Prefixes have one byte each and
the offset wraps, so a step that does not end within 65536 fetches has met every offset of its
segment, and goes round forever.

* `Machine.stepWithin_endless_iff` says what a number of fetches has met if none of them ended the
  step, and `Machine.stepWithin_eq_of_le` that a step that has ended stays as it is.
* `Machine.OnlyPrefixes` is the one obstacle: all 65536 bytes of the code segment are prefixes and
  the program is large enough to contain them.  `Machine.stepWithin_endless_iff_onlyPrefixes` says
  that there is no other.
* `Machine.runFrom_ends` carries this over to runs, whose limit counts instructions and not fetches.
-/

set_option autoImplicit false

namespace I8086
namespace Machine

/-! ## What a step leaves alone -/

/-- The program is as long as it was, and a run may take as many steps. -/
structure SameSettings (m m' : Machine) : Prop where
  size_eq : m'.size = m.size
  maxSteps_eq : m'.maxSteps = m.maxSteps

namespace SameSettings

variable {m m' : Machine}

theorem refl (m : Machine) : m.SameSettings m := ⟨rfl, rfl⟩

theorem trans {m'' : Machine} (h : m.SameSettings m') (h' : m'.SameSettings m'') :
    m.SameSettings m'' :=
  ⟨h'.size_eq.trans h.size_eq, h'.maxSteps_eq.trans h.maxSteps_eq⟩

theorem execute (m : Machine) (i : Instruction) (ip : UInt16) :
    m.SameSettings (m.execute i ip).2 := by
  refine m.relates_execute refl trans (fun heffect => ?_) ip
  cases heffect <;> exact ⟨rfl, rfl⟩

end SameSettings

/-- The machine after a fetch. -/
def Fetch.machine : Fetch → Machine
  | prefixed m | ready _ _ m | failed _ _ m => m

theorem SameSettings.fetch (m : Machine) : m.SameSettings m.fetch.machine := by
  rcases m.fetch_cases with ⟨i, e, pending, hfetch⟩ | ⟨x, -, hfetch⟩
  · rw [hfetch]
    exact ⟨rfl, rfl⟩
  · rw [hfetch]
    split
    · exact ⟨rfl, rfl⟩
    · exact ⟨rfl, rfl⟩

/-! ## One fetch -/

@[simp] theorem ip_setIp (m : Machine) (v : UInt16) : (m.setIp v).ip = v :=
  m.registers.word_setWord_self (x := .ip) rfl v

@[simp] theorem cs_setIp (m : Machine) (v : UInt16) :
    (m.setIp v).registers.word .cs = m.registers.word .cs :=
  m.registers.word_setWord_of_ne (x := .ip) (y := .cs) (by decide) v

/-- The machine behind a prefix. -/
def passPrefix (m : Machine) : Machine :=
  { m with pending := m.pending.join (m.image.get m.cursor.address) }.setIp (m.ip + 1)

theorem cursor_passPrefix (m : Machine) : m.passPrefix.cursor = m.cursor.advance 1 := by
  rw [cursor, passPrefix, cs_setIp, ip_setIp]
  rfl

theorem fetch_of_mem_bytes {m : Machine} (hb : m.image.get m.cursor.address ∈ Prefix.bytes) :
    if m.ip.toNat < m.size.toNat then m.fetch = .prefixed m.passPrefix
    else ∃ i e m', m.fetch = .failed i e m' := by
  obtain ⟨x, hx, hp, hsize, hcursor, hpending⟩ := decodeOne_of_mem_bytes m.pending hb
  have hend : (m.ip.toUInt32 + 1).toNat = m.ip.toNat + 1 := by
    have hip := m.ip.toNat_lt
    rw [UInt32.toNat_add, UInt16.toNat_toUInt32, UInt32.toNat_one, Nat.mod_eq_of_lt (by omega)]
  have hlarge : m.ip.toUInt32 + x.instruction.size > m.size ↔ ¬ m.ip.toNat < m.size.toNat := by
    rw [hsize, gt_iff_lt, UInt32.lt_iff_toNat_lt, hend]
    omega
  rw [fetch, hx]
  by_cases hlt : m.ip.toNat < m.size.toNat
  · simp only [if_neg fun h => hlarge.1 h hlt, if_pos hlt, if_pos hp, hpending, hcursor]
    rfl
  · simp only [if_pos (hlarge.2 hlt), if_neg hlt]
    exact ⟨_, _, _, rfl⟩

theorem fetch_ne_prefixed {m : Machine} (hb : m.image.get m.cursor.address ∉ Prefix.bytes)
    (m' : Machine) : m.fetch ≠ .prefixed m' := by
  intro h
  rcases m.fetch_cases with ⟨i, e, pending, hfetch⟩ | ⟨x, hx, hfetch⟩
  · rw [hfetch] at h
    cases h
  · have hp : x.instruction.isPrefix = false :=
      Bool.eq_false_iff.2 fun hp => hb ((isPrefix_iff_of_decodeWithin hx).1 hp)
    rw [hfetch, hp] at h
    cases h

/-- The fetch of the byte `k` places behind `ip` meets a prefix, and one inside the program. -/
def PrefixAt (m : Machine) (k : Nat) : Prop :=
  m.image.along m.cursor k ∈ Prefix.bytes ∧ (m.ip + .ofNat k).toNat < m.size.toNat

theorem prefixAt_zero (m : Machine) :
    m.PrefixAt 0 ↔ m.image.get m.cursor.address ∈ Prefix.bytes ∧ m.ip.toNat < m.size.toNat := by
  rw [PrefixAt, Image.along_zero, show UInt16.ofNat 0 = 0 from rfl, UInt16.add_zero]

theorem prefixAt_passPrefix (m : Machine) (k : Nat) :
    m.passPrefix.PrefixAt k ↔ m.PrefixAt (k + 1) := by
  have hip : m.passPrefix.ip + .ofNat k = m.ip + .ofNat (k + 1) := by
    rw [passPrefix, ip_setIp, UInt16.ofNat_add, UInt16.add_assoc, UInt16.add_comm 1]
    rfl
  rw [PrefixAt, PrefixAt, cursor_passPrefix, hip, Image.along_succ]
  rfl

theorem fetch_prefixed_of_prefixAt {m : Machine} (h : m.PrefixAt 0) :
    m.fetch = .prefixed m.passPrefix := by
  obtain ⟨hb, hlt⟩ := m.prefixAt_zero.1 h
  have hfetch := fetch_of_mem_bytes hb
  rwa [if_pos hlt] at hfetch

theorem fetch_ne_prefixed_of_not_prefixAt {m : Machine} (h : ¬ m.PrefixAt 0) (m' : Machine) :
    m.fetch ≠ .prefixed m' := by
  rw [prefixAt_zero, not_and] at h
  by_cases hb : m.image.get m.cursor.address ∈ Prefix.bytes
  · have hfetch := fetch_of_mem_bytes hb
    rw [if_neg (h hb)] at hfetch
    obtain ⟨i, e, m'', he⟩ := hfetch
    rw [he]
    exact nofun
  · exact fetch_ne_prefixed hb m'

/-! ## Any number of fetches -/

theorem stepWithin_of_prefixAt {m : Machine} (h : m.PrefixAt 0) (n : Nat) :
    m.stepWithin (n + 1) = m.passPrefix.stepWithin n := by
  rw [stepWithin, fetch_prefixed_of_prefixAt h]

/-- A step that meets no prefix ends, and is the same however often it may fetch. -/
theorem stepWithin_of_not_prefixAt {m : Machine} (h : ¬ m.PrefixAt 0) :
    ∃ r : StepResult × Machine,
      r.1 ≠ .endless ∧ m.SameSettings r.2 ∧ ∀ n, m.stepWithin (n + 1) = r := by
  have hne := fetch_ne_prefixed_of_not_prefixAt h
  have hfetch := SameSettings.fetch m
  cases hf : m.fetch with
  | prefixed m' => exact absurd hf (hne m')
  | failed i e m' =>
    rw [hf] at hfetch
    refine ⟨(.failed i (.decode e), m'), nofun, hfetch, fun n => ?_⟩
    rw [stepWithin, hf]
  | ready i ip m' =>
    rw [hf] at hfetch
    have hexecute := hfetch.trans (.execute m' i ip)
    cases he : m'.execute i ip with
    | mk failure m'' =>
      rw [he] at hexecute
      match failure with
      | none =>
        refine ⟨(.executed i, m''), nofun, hexecute, fun n => ?_⟩
        rw [stepWithin, hf]; simp only [he]
      | some (.unsupported u) =>
        refine ⟨(.failed i (.unsupported u), m''), nofun, hexecute, fun n => ?_⟩
        rw [stepWithin, hf]; simp only [he]
      | some (.fault f) =>
        refine ⟨(.fault f, m''), nofun, hexecute, fun n => ?_⟩
        rw [stepWithin, hf]; simp only [he]

/-- A step is still going on after `n` fetches exactly if all of them met prefixes. -/
theorem stepWithin_endless_iff (n : Nat) (m : Machine) :
    (m.stepWithin n).1 = .endless ↔ ∀ k < n, m.PrefixAt k := by
  induction n generalizing m with
  | zero => exact iff_of_true rfl fun k hk => absurd hk (Nat.not_lt_zero k)
  | succ n ih =>
    rw [Nat.forall_lt_succ_left]
    by_cases h : m.PrefixAt 0
    · rw [stepWithin_of_prefixAt h, ih]
      simp only [prefixAt_passPrefix]
      exact (and_iff_right h).symm
    · obtain ⟨r, hr, -, hn⟩ := stepWithin_of_not_prefixAt h
      rw [hn]
      exact iff_of_false hr fun hall => h hall.1

/-- A step that has ended is not changed by the fetches it may still make. -/
theorem stepWithin_eq_of_le {n k : Nat} {m : Machine} (h : (m.stepWithin n).1 ≠ .endless)
    (hle : n ≤ k) : m.stepWithin k = m.stepWithin n := by
  induction n generalizing m k with
  | zero => exact absurd rfl h
  | succ n ih =>
    obtain ⟨k, rfl⟩ := Nat.exists_eq_add_of_le' hle
    rw [← Nat.add_assoc] at hle ⊢
    by_cases hp : m.PrefixAt 0
    · rw [stepWithin_of_prefixAt hp] at h
      rw [stepWithin_of_prefixAt hp, stepWithin_of_prefixAt hp]
      exact ih h (Nat.le_of_succ_le_succ hle)
    · obtain ⟨r, -, -, hn⟩ := stepWithin_of_not_prefixAt hp
      rw [hn, hn]

/-! ## The one obstacle -/

/-- All of the code segment is prefixes, and the program reaches to its end. -/
def OnlyPrefixes (m : Machine) : Prop :=
  65536 ≤ m.size.toNat ∧
    ∀ offset : UInt16,
      m.image.get (Address.ofSegment (m.registers.word .cs) offset 0) ∈ Prefix.bytes

theorem along_cursor (m : Machine) (k : Nat) :
    m.image.along m.cursor k =
      m.image.get (Address.ofSegment (m.registers.word .cs) (m.ip + .ofNat k) 0) := by
  rw [Image.along, Cursor.addressAt, Address.ofSegment, Address.ofSegment, UInt16.add_zero]
  rfl

theorem OnlyPrefixes.prefixAt {m : Machine} (h : m.OnlyPrefixes) (k : Nat) : m.PrefixAt k := by
  refine ⟨?_, Nat.lt_of_lt_of_le (UInt16.toNat_lt _) h.1⟩
  rw [along_cursor]
  exact h.2 _

theorem OnlyPrefixes.stepWithin {m : Machine} (h : m.OnlyPrefixes) (n : Nat) :
    (m.stepWithin n).1 = .endless :=
  (stepWithin_endless_iff n m).2 fun k _ => h.prefixAt k

theorem onlyPrefixes_of_prefixAt {m : Machine} (h : ∀ k < 65536, m.PrefixAt k) :
    m.OnlyPrefixes := by
  have hoffset : ∀ offset : UInt16, ∃ k < 65536, m.ip + .ofNat k = offset := fun offset =>
    ⟨(offset - m.ip).toNat, UInt16.toNat_lt _, by
      rw [UInt16.ofNat_toNat, UInt16.add_comm, UInt16.sub_add_cancel]⟩
  constructor
  · obtain ⟨k, hk, hlast⟩ := hoffset 65535
    have hlt := (h k hk).2
    rw [hlast] at hlt
    exact hlt
  · intro offset
    obtain ⟨k, hk, rfl⟩ := hoffset offset
    rw [← along_cursor]
    exact (h k hk).1

/-- After 65536 fetches a step has ended, or it never ends. -/
theorem stepWithin_endless_iff_onlyPrefixes {n : Nat} (hn : 65536 ≤ n) (m : Machine) :
    (m.stepWithin n).1 = .endless ↔ m.OnlyPrefixes := by
  refine ⟨?_, fun h => h.stepWithin n⟩
  intro h
  rw [stepWithin_endless_iff] at h
  exact onlyPrefixes_of_prefixAt fun k hk => h k (Nat.lt_of_lt_of_le hk hn)

/-! ## Steps and runs -/

/-- However a step ends, it keeps the settings; one that does not end keeps the code segment too. -/
theorem sameSettings_stepWithin (n : Nat) (m : Machine) :
    m.SameSettings (m.stepWithin n).2 ∧
      ((m.stepWithin n).1 = .endless → (m.stepWithin n).2.image = m.image ∧
        (m.stepWithin n).2.registers.word .cs = m.registers.word .cs) := by
  induction n generalizing m with
  | zero => exact ⟨.refl m, fun _ => ⟨rfl, rfl⟩⟩
  | succ n ih =>
    by_cases h : m.PrefixAt 0
    · obtain ⟨hsame, hendless⟩ := ih m.passPrefix
      rw [stepWithin_of_prefixAt h]
      refine ⟨⟨hsame.size_eq, hsame.maxSteps_eq⟩, ?_⟩
      intro he
      obtain ⟨himage, hcs⟩ := hendless he
      exact ⟨himage, hcs.trans (cs_setIp ..)⟩
    · obtain ⟨r, hr, hsame, hn⟩ := stepWithin_of_not_prefixAt h
      rw [hn]
      exact ⟨hsame, fun he => absurd he hr⟩

theorem onlyPrefixes_of_step_endless {m m' : Machine} (h : m.step = (.endless, m')) :
    m'.OnlyPrefixes := by
  obtain ⟨hsame, hendless⟩ := m.sameSettings_stepWithin 65536
  have hstep : m.stepWithin 65536 = (.endless, m') := h
  have honly := (stepWithin_endless_iff_onlyPrefixes (Nat.le_refl _) m).1 (by rw [hstep])
  rw [hstep] at hsame hendless
  obtain ⟨himage, hcs⟩ := hendless rfl
  rw [OnlyPrefixes, himage, hcs, hsame.size_eq]
  exact honly

/-- The offset stays inside such a program, so a run takes the step that does not end. -/
theorem OnlyPrefixes.run {m : Machine} (h : m.OnlyPrefixes) (hlimit : 0 < m.maxSteps)
    (fuel : Nat) (trace : Option Output) : (m.run fuel trace).1 = .endless := by
  obtain ⟨limit, hpos⟩ : ∃ limit, m.maxSteps.toNat = limit + 1 :=
    Nat.exists_eq_succ_of_ne_zero (by omega)
  have hdone : m.done = false := by
    have hip := m.ip.toNat_lt
    have hsize := h.1
    rw [done, decide_eq_false_iff_not, ge_iff_le, UInt32.le_iff_toNat_le, UInt16.toNat_toUInt32]
    omega
  have hreached : m.limitReached 0 = false := by
    rw [limitReached, Bool.and_eq_false_iff, decide_eq_false_iff_not, decide_eq_false_iff_not]
    omega
  have hstep : m.step = (.endless, m.step.2) := Prod.ext (h.stepWithin 65536) rfl
  rw [Machine.run, if_pos hlimit, hpos, runFrom, hdone, hreached, hstep]
  rfl

/-- A run whose fuel reaches to its limit ends, unless one of its steps does not. -/
theorem runFrom_ends {fuel steps : Nat} {m : Machine} {trace : Option Output}
    (hlimit : 0 < m.maxSteps) (hfuel : m.maxSteps ≤ ((steps + fuel : Nat) : Int)) :
    (runFrom fuel steps m trace).1 ≠ .starved ∧
      ((runFrom fuel steps m trace).1 = .endless →
        (runFrom fuel steps m trace).2.1.OnlyPrefixes ∧ 65536 ≤ m.size.toNat) := by
  induction fuel generalizing steps m trace with
  | zero =>
    rw [runFrom]
    split
    · exact ⟨nofun, nofun⟩
    · have hreached : m.limitReached steps = true := by
        rw [limitReached, Bool.and_eq_true, decide_eq_true_eq, decide_eq_true_eq]
        exact ⟨hlimit, hfuel⟩
      rw [if_pos hreached]
      exact ⟨nofun, nofun⟩
  | succ fuel ih =>
    rw [runFrom]
    split
    · exact ⟨nofun, nofun⟩
    · split
      · exact ⟨nofun, nofun⟩
      · have hsame := (m.sameSettings_stepWithin 65536).1
        cases hstep : m.step with
        | mk result m' =>
          rw [show m.stepWithin 65536 = (result, m') from hstep] at hsame
          cases result with
          | failed i e => exact ⟨nofun, nofun⟩
          | fault f => exact ⟨nofun, nofun⟩
          | endless =>
            have honly := onlyPrefixes_of_step_endless hstep
            exact ⟨nofun, fun _ => ⟨honly, hsame.size_eq ▸ honly.1⟩⟩
          | executed i =>
            simp only
            split
            · exact ⟨nofun, nofun⟩
            · split
              · exact ⟨nofun, nofun⟩
              · rw [← hsame.size_eq]
                refine ih (hsame.maxSteps_eq ▸ hlimit) ?_
                rw [hsame.maxSteps_eq]
                omega

/-- A step ends exactly if the code segment has a byte that is no prefix or an offset beyond the
program, and then 65536 fetches are enough.  A run with a limit ends unless one of its steps does
not, which no program below 64 KiB can bring about. -/
theorem step_ends_iff_not_onlyPrefixes (m : Machine) :
    ((∃ n, (m.stepWithin n).1 ≠ .endless) ↔ ¬ m.OnlyPrefixes) ∧
      (¬ m.OnlyPrefixes → ∀ n, 65536 ≤ n → m.stepWithin n = m.step) ∧
      (0 < m.maxSteps → ∀ fuel trace,
        (m.run fuel trace).1 ≠ .starved ∧
          ((m.run fuel trace).1 = .endless →
            (m.run fuel trace).2.1.OnlyPrefixes ∧ 65536 ≤ m.size.toNat)) := by
  have hstep : ¬ m.OnlyPrefixes → (m.stepWithin 65536).1 ≠ .endless := fun h he =>
    h ((stepWithin_endless_iff_onlyPrefixes (Nat.le_refl _) m).1 he)
  refine ⟨⟨?_, fun h => ⟨65536, hstep h⟩⟩, ?_, ?_⟩
  · rintro ⟨n, hn⟩ honly
    exact hn (honly.stepWithin n)
  · intro h n hn
    exact stepWithin_eq_of_le (hstep h) hn
  · intro hlimit fuel trace
    rw [run, if_pos hlimit]
    refine runFrom_ends hlimit ?_
    omega

/-- A segment full of `lock` prefixes, of which the program has the first `size`. -/
def lockSegment (size : UInt32) : Machine :=
  .new (Image.zero.setRange 0 (List.replicate 65536 0xF0)) size

theorem image_lockSegment (size : UInt32) :
    (lockSegment size).image = Image.zero.setRange 0 (List.replicate 65536 0xF0) := by
  rw [lockSegment, new]

theorem cs_lockSegment (size : UInt32) : (lockSegment size).registers.word .cs = 0 := rfl

theorem maxSteps_lockSegment_pos (size : UInt32) : 0 < (lockSegment size).maxSteps := by
  have hdefault : 0 < defaultMaxSteps := by decide
  rw [lockSegment, new]
  exact hdefault

theorem onlyPrefixes_lockSegment {size : UInt32} (h : 65536 ≤ size.toNat) :
    (lockSegment size).OnlyPrefixes := by
  refine ⟨h, fun offset => ?_⟩
  have hlt : offset.toNat < 65536 := offset.toNat_lt
  have haddress : (Address.ofSegment 0 offset 0).toNat = offset.toNat := by
    rw [Address.toNat_ofSegment, imageSize, UInt16.toNat_zero]
    omega
  rw [image_lockSegment, cs_lockSegment, Image.get_setRange, if_pos (Nat.zero_le _), Nat.sub_zero,
    haddress, List.getElem?_replicate_of_lt hlt, Option.getD_some]
  decide

/-- If the last of the prefixes lies beyond the program, the step comes to an end there. -/
theorem step_lockSegment_ends :
    ¬ (lockSegment 65535).OnlyPrefixes ∧ 0 < (lockSegment 65535).maxSteps ∧
      (∃ n, ((lockSegment 65535).stepWithin n).1 ≠ .endless) ∧
      (lockSegment 65535).stepWithin 65537 = (lockSegment 65535).step ∧
      ((lockSegment 65535).run 0 none).1 ≠ .starved ∧
      ((lockSegment 65535).run 0 none).1 ≠ .endless := by
  have hnot : ¬ (lockSegment 65535).OnlyPrefixes := fun h => absurd h.1 (by decide)
  have hlimit := maxSteps_lockSegment_pos 65535
  obtain ⟨hends, hsame, hrun⟩ := step_ends_iff_not_onlyPrefixes (lockSegment 65535)
  obtain ⟨hstarved, hendless⟩ := hrun hlimit 0 none
  exact ⟨hnot, hlimit, hends.2 hnot, hsame hnot 65537 (by decide), hstarved,
    fun h => absurd (hendless h).2 (by decide)⟩

/-- If the program has all of them, no number of fetches ends the step, and the limit of a run does
not count them. -/
theorem lockSegment_never_ends :
    (∀ n, ((lockSegment 65536).stepWithin n).1 = .endless) ∧
      0 < (lockSegment 65536).maxSteps ∧ ((lockSegment 65536).run 0 none).1 = .endless := by
  have honly : (lockSegment 65536).OnlyPrefixes := onlyPrefixes_lockSegment (by decide)
  have hlimit := maxSteps_lockSegment_pos 65536
  exact ⟨honly.stepWithin, hlimit, honly.run hlimit 0 none⟩

end Machine
end I8086
