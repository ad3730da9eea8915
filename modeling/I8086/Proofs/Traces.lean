import I8086.Proofs.Resuming
import I8086.Proofs.Sums
import I8086.Proofs.Wording
import I8086.Proofs.Lanes

/-!
# What a trace tells

A line of a trace shows an instruction and the registers that it changed.  From the registers at
the start, the registers at the end can be worked out line by line.

* `Registers.changes_inj` reads the registers back from what changed.  Neither the flags without a
  letter nor the register `blank` are shown.  `Registers.Follows` says that they are the same as
  before, and `Machine.follows_step` that no step changes them.
* `Machine.Logs` relates the registers at the start and at the end of a trace, whose text tells
  where it ends (`Machine.Logs.right_unique`).
* `Machine.registers_eq_of_trace_eq` compares two runs.
-/

set_option autoImplicit false

namespace I8086

open Text

/-! ## The letters of the flags -/

namespace Flags

theorem mem_toList_render {flags : UInt16} {c : Char} :
    c ∈ (render flags).toList ↔
      ∃ entry ∈ letters, has flags entry.1 = true ∧ c ∈ entry.2.toList := by
  simp only [render, String.toList_join, List.mem_flatMap, List.mem_map, List.mem_filter]
  constructor
  · rintro ⟨-, ⟨entry, ⟨hentry, hhas⟩, rfl⟩, hc⟩
    exact ⟨entry, hentry, hhas, hc⟩
  · rintro ⟨entry, hentry, hhas, hc⟩
    exact ⟨_, ⟨entry, ⟨hentry, hhas⟩, rfl⟩, hc⟩

/-- The letters tell which flags are set. -/
theorem has_eq_of_render_eq {f g : UInt16} (h : render f = render g) {entry : UInt16 × String}
    (hentry : entry ∈ letters) : has f entry.1 = has g entry.1 := by
  have hletter : ∀ e ∈ letters, ∀ e' ∈ letters,
      e' = e ∨ (e.2.toList.all fun c => !e'.2.toList.contains c) = true := by
    decide
  have hsome : ∀ e ∈ letters, e.2.toList ≠ [] := by decide
  obtain ⟨c, hc⟩ := List.exists_mem_of_ne_nil _ (hsome entry hentry)
  have hshown : ∀ flags : UInt16, has flags entry.1 = true ↔ c ∈ (render flags).toList := by
    intro flags
    rw [mem_toList_render]
    constructor
    · intro hhas
      exact ⟨entry, hentry, hhas, hc⟩
    · rintro ⟨e, he, hhas, hce⟩
      rcases hletter entry hentry e he with rfl | hother
      · exact hhas
      · have hnot := List.all_eq_true.1 hother c hc
        simp [hce] at hnot
  rw [Bool.eq_iff_iff, hshown, hshown, h]

theorem lacks_render {cs : List Char} (hcs : ∀ c ∈ cs, ∀ entry ∈ letters, c ∉ entry.2.toList)
    (flags : UInt16) : Lacks cs (render flags) := by
  intro c hc hmem
  obtain ⟨entry, hentry, -, hletter⟩ := mem_toList_render.1 hmem
  exact hcs c hc entry hentry hletter

theorem flag_and {flag : UInt16} {k : Nat} (hflag : flag.toNat = 2 ^ k) (flags : UInt16) :
    flag &&& flags = when (has flags flag) flag := by
  have hand : (flag &&& flags).toNat = (flags.toNat.testBit k).toNat * 2 ^ k := by
    rw [UInt16.toNat_and, hflag, Nat.and_comm, Nat.and_two_pow]
  rw [has, UInt16.and_comm flags]
  cases hbit : flags.toNat.testBit k with
  | false =>
    rw [hbit, Bool.toNat_false, Nat.zero_mul] at hand
    rw [show flag &&& flags = 0 from UInt16.toNat_inj.1 hand]
    rfl
  | true =>
    rw [hbit, Bool.toNat_true, Nat.one_mul] at hand
    have hset : flag &&& flags = flag := UInt16.toNat_inj.1 (hand.trans hflag.symm)
    have hzero : flag ≠ 0 := by
      rintro rfl
      exact (Nat.two_pow_pos k).ne hflag
    rw [hset, bne_iff_ne.2 hzero]
    rfl

theorem eq_or_and (mask flags : UInt16) : flags = (mask &&& flags) ||| (~~~mask &&& flags) := by
  rw [← or_and_right, UInt16.or_not_self, UInt16.neg_one_and]

/-- The flags that arithmetic sets all have a letter, so the letters and the other flags tell
everything. -/
theorem eq_of_render_eq {f g : UInt16} (h : render f = render g)
    (hothers : f &&& ~~~arithmetic = g &&& ~~~arithmetic) : f = g := by
  have hflag : ∀ entry ∈ letters, entry.1 &&& f = entry.1 &&& g := by
    intro entry hentry
    have hpower : ∃ k : Fin 16, entry.1.toNat = 2 ^ k.val :=
      (show ∀ e ∈ letters, ∃ k : Fin 16, e.1.toNat = 2 ^ k.val by decide) entry hentry
    obtain ⟨k, hk⟩ := hpower
    rw [flag_and hk, flag_and hk, has_eq_of_render_eq h hentry]
  have harithmetic : arithmetic &&& f = arithmetic &&& g := by
    simp only [arithmetic, or_and_right]
    rw [hflag (carry, "C") (by decide), hflag (parity, "P") (by decide),
      hflag (auxiliary, "A") (by decide), hflag (zero, "Z") (by decide),
      hflag (sign, "S") (by decide), hflag (overflow, "O") (by decide)]
  rw [eq_or_and arithmetic f, harithmetic, UInt16.and_comm _ f, hothers, UInt16.and_comm g,
    ← eq_or_and]

end Flags

/-! ## What changed -/

namespace Registers

/-- What a trace shows of a register. -/
def shown (x : Register) (r : Registers) : String :=
  if x = .flags then Flags.render r.flags else "0x" ++ hex (r.word x).toNat

/-- The registers of a list that differ, with what is shown of them before and after. -/
def entries (xs : List Register) (before after : Registers) : String :=
  String.join ((xs.filter fun x => before.word x != after.word x).map fun x =>
    " " ++ x.name ++ ":" ++ shown x before ++ "->" ++ shown x after)

theorem changes_eq (before after : Registers) :
    changes before after = entries (printed ++ [.flags]) before after := by
  have hprinted : ∀ x ∈ printed, changeOf before after x =
      " " ++ x.name ++ ":" ++ shown x before ++ "->" ++ shown x after := by
    intro x hx
    have hflags : x ≠ .flags := by
      rintro rfl
      exact absurd hx (by decide)
    rw [changeOf, shown, shown, if_neg hflags, if_neg hflags]
    rw [← String.toList_inj]
    simp
  rw [changes, entries, List.filter_append, List.map_append, String.join_append]
  refine congrArg₂ (· ++ ·) ?_ ?_
  · exact congrArg _ (List.map_congr_left fun x hx => hprinted x (List.mem_filter.1 hx).1)
  · have hfilter : [Register.flags].filter (fun x => before.word x != after.word x) =
        bif before.flags != after.flags then [.flags] else [] := List.filter_singleton
    rw [hfilter]
    cases before.flags != after.flags with
    | false => rfl
    | true =>
      rw [if_pos rfl, cond_true, List.map_singleton, ← String.toList_inj]
      simp [shown, Register.name]

theorem shown_congr {x : Register} {r s : Registers} (h : r.word x = s.word x) :
    shown x r = shown x s := by
  rw [shown, shown, h]
  split
  · subst x
    exact congrArg Flags.render h
  · rfl

theorem lacks_shown (x : Register) (r : Registers) : Lacks [' ', '\n'] (shown x r) := by
  rw [shown]
  split
  · exact Flags.lacks_render (by simp [Flags.letters]) r.flags
  · have hdigits : Lacks [' ', '\n'] (hex (r.word x).toNat) := by
      intro c hc hmem
      obtain ⟨d, rfl⟩ := exists_digitChar_of_mem_hex hmem
      revert hc
      simp
    exact Lacks.append (by simp [Lacks]) hdigits

theorem entries_cons (x : Register) (xs : List Register) (before after : Registers) :
    entries (x :: xs) before after =
      if before.word x = after.word x then entries xs before after
      else " " ++ (x.name ++ (":" ++ (shown x before ++ ("->" ++
        (shown x after ++ entries xs before after))))) := by
  rw [entries, List.filter_cons]
  by_cases h : before.word x = after.word x <;> simp [h, entries, String.append_assoc]

/-- Entries start with a space and the name of a register. -/
theorem entries_cases (xs : List Register) (before after : Registers) :
    entries xs before after = "" ∨ ∃ x ∈ xs, ∃ rest : String,
      entries xs before after = " " ++ (x.name ++ (":" ++ rest)) := by
  induction xs with
  | nil => exact .inl rfl
  | cons x xs ih =>
    rw [entries_cons]
    split
    · rcases ih with h | ⟨y, hy, rest, h⟩
      · exact .inl h
      · exact .inr ⟨y, List.mem_cons_of_mem _ hy, rest, h⟩
    · exact .inr ⟨x, List.mem_cons_self, _, rfl⟩

/-- An entry is not taken for the entry of another register. -/
theorem entry_ne_entries {x : Register} {xs : List Register} (hx : x.name ∉ xs.map Register.name)
    (rest : String) (before after : Registers) :
    " " ++ (x.name ++ (":" ++ rest)) ≠ entries xs before after := by
  intro h
  rcases entries_cases xs before after with hempty | ⟨y, hy, rest', hentry⟩
  · have := congrArg String.toList (h.trans hempty)
    simp at this
  · have hchars := congrArg String.toList (h.trans hentry)
    have hparts : x.name.toList ++ ':' :: rest.toList = y.name.toList ++ ':' :: rest'.toList := by
      simpa using hchars
    have hname : ∀ r : Register, ':' ∉ r.name.toList := fun r => r.lacks_name ':' (by simp)
    obtain ⟨hsame, -⟩ := append_cons_inj (hname x) (hname y) hparts
    exact hx (List.mem_map.2 ⟨y, hy, (String.toList_inj.1 hsame).symm⟩)

theorem stops_entries (xs : List Register) (before after : Registers) :
    Stops (· != ' ') (entries xs before after).toList := by
  rcases entries_cases xs before after with h | ⟨x, -, rest, h⟩
  · rw [h]
    exact .nil _
  · rw [h]
    simp only [String.toList_append]
    exact .cons (by decide) _

/-- The first entry, if there is one, can be told from those behind it. -/
theorem entries_cons_inj {x : Register} {xs : List Register} (hx : x.name ∉ xs.map Register.name)
    {before after after' : Registers}
    (h : entries (x :: xs) before after = entries (x :: xs) before after') :
    shown x after = shown x after' ∧ entries xs before after = entries xs before after' := by
  rw [entries_cons, entries_cons] at h
  by_cases hafter : before.word x = after.word x <;>
    by_cases hafter' : before.word x = after'.word x
  · rw [if_pos hafter, if_pos hafter'] at h
    exact ⟨shown_congr (hafter.symm.trans hafter'), h⟩
  -- what only one of the texts has an entry for stands in none of the other entries
  · rw [if_pos hafter, if_neg hafter'] at h
    exact absurd h.symm (entry_ne_entries hx _ _ _)
  · rw [if_neg hafter, if_pos hafter'] at h
    exact absurd h (entry_ne_entries hx _ _ _)
  · rw [if_neg hafter, if_neg hafter'] at h
    simp only [String.append_right_inj] at h
    rw [← String.toList_inj, String.toList_append, String.toList_append] at h
    have hspace : ∀ r : Registers, ∀ c ∈ (shown x r).toList, (c != ' ') = true := fun r =>
      bne_of_not_mem (lacks_shown x r ' ' (by simp))
    obtain ⟨hshown, hrest⟩ := append_inj_of_stops (hspace after) (hspace after')
      (stops_entries xs before after) (stops_entries xs before after') h
    exact ⟨String.toList_inj.1 hshown, String.toList_inj.1 hrest⟩

/-- The entries tell what is shown of the registers after the change. -/
theorem shown_eq_of_entries_eq {xs : List Register} (hxs : (xs.map Register.name).Nodup)
    {before after after' : Registers} (h : entries xs before after = entries xs before after') :
    ∀ x ∈ xs, shown x after = shown x after' := by
  induction xs with
  | nil => nofun
  | cons x xs ih =>
    obtain ⟨hx, hxs⟩ := List.nodup_cons.1 hxs
    obtain ⟨hshown, hrest⟩ := entries_cons_inj hx h
    intro y hy
    rcases List.mem_cons.1 hy with rfl | hy
    · exact hshown
    · exact ih hxs hrest y hy

theorem lacks_entries (xs : List Register) (before after : Registers) :
    Lacks ['\n'] (entries xs before after) := by
  have hname : ∀ x : Register, Lacks ['\n'] x.name := by
    intro x
    cases x <;> simp [Lacks, Register.name]
  have hshown : ∀ (x : Register) (r : Registers), Lacks ['\n'] (shown x r) := fun x r =>
    (lacks_shown x r).subset (by simp)
  induction xs with
  | nil => simp [Lacks, entries]
  | cons x xs ih =>
    rw [entries_cons]
    split
    · exact ih
    · refine .append (by simp [Lacks]) ((hname x).append (.append (by simp [Lacks]) ?_))
      exact (hshown x before).append (.append (by simp [Lacks]) ((hshown x after).append ih))

theorem lacks_changes (before after : Registers) : Lacks ['\n'] (changes before after) := by
  rw [changes_eq]
  exact lacks_entries _ before after

/-- From the registers before, what changed and what is not shown, the registers after can be told.
-/
theorem changes_inj {before after after' : Registers}
    (h : changes before after = changes before after')
    (hblank : after.word .blank = after'.word .blank)
    (hflags : after.flags &&& ~~~Flags.arithmetic = after'.flags &&& ~~~Flags.arithmetic) :
    after = after' := by
  rw [changes_eq, changes_eq] at h
  have hshown := shown_eq_of_entries_eq (by decide) h
  have hword : ∀ x ∈ printed, after.word x = after'.word x := by
    intro x hx
    have hx' : x ≠ .flags := by
      rintro rfl
      exact absurd hx (by decide)
    have := hshown x (List.mem_append_left _ hx)
    rw [shown, shown, if_neg hx', if_neg hx', String.append_right_inj] at this
    exact UInt16.toNat_inj.1 (hex_injective this)
  have hletters : Flags.render after.flags = Flags.render after'.flags :=
    hshown .flags (by simp)
  refine ext_word fun x hx => ?_
  have hcases : ∀ x ∈ Register.named, x = .blank ∨ x ∈ printed ∨ x = .flags := by decide
  rcases hcases x hx with rfl | hx | rfl
  · exact hblank
  · exact hword x hx
  · exact Flags.eq_of_render_eq hletters hflags

/-! ## What a step leaves alone -/

/-- What a trace does not show is the same. -/
structure Follows (before after : Registers) : Prop where
  blank : after.word .blank = before.word .blank
  flags : after.flags &&& ~~~Flags.arithmetic = before.flags &&& ~~~Flags.arithmetic

namespace Follows

variable {r s t : Registers}

theorem refl (r : Registers) : Follows r r := ⟨rfl, rfl⟩

theorem trans (h : Follows r s) (h' : Follows s t) : Follows r t :=
  ⟨h'.blank.trans h.blank, h'.flags.trans h.flags⟩

theorem setWord (r : Registers) {x : Register} (hblank : x ≠ .blank) (hflags : x ≠ .flags)
    (v : UInt16) : Follows r (r.setWord x v) :=
  ⟨r.word_setWord_of_ne hblank v,
    congrArg (· &&& ~~~Flags.arithmetic) (r.word_setWord_of_ne hflags v)⟩

theorem set (r : Registers) {part : RegisterPart} (hpart : part ∈ RegisterPart.encoded)
    (v : UInt16) : Follows r (r.set part v) := by
  obtain ⟨hblank, hflags, -⟩ := RegisterPart.ne_of_mem_encoded hpart
  exact ⟨r.word_set_of_ne v hblank,
    congrArg (· &&& ~~~Flags.arithmetic) (r.word_set_of_ne v hflags)⟩

theorem setFlags {v : UInt16} (h : v &&& ~~~Flags.arithmetic = r.flags &&& ~~~Flags.arithmetic) :
    Follows r (r.setFlags v) := by
  refine ⟨r.word_setWord_of_ne (x := .flags) (by decide) v, ?_⟩
  rw [Registers.setFlags, Registers.flags, r.word_setWord_self (x := .flags) rfl]
  exact h

end Follows
end Registers

namespace Machine

theorem follows_execute {i : Instruction}
    (hi : ∀ part, i.operands.first = some (.register part) → part ∈ RegisterPart.encoded)
    (m : Machine) (ip : UInt16) : m.registers.Follows (m.execute i ip).2.registers := by
  refine m.relates_execute (R := fun m m' => m.registers.Follows m'.registers)
    (fun m => .refl _) .trans (fun heffect => ?_) ip
  cases heffect with
  | register _ hfirst v => exact .set _ (hi _ hfirst) v
  | byte => exact .refl _
  | word => exact .refl _
  | flags => exact .setFlags (Flags.ofOperands_and_not ..)
  | count => exact .setWord _ (x := .c) (by decide) (by decide) _
  | ip => exact .setWord _ (x := .ip) (by decide) (by decide) _

theorem follows_stepWithin (n : Nat) (m : Machine) :
    m.registers.Follows (m.stepWithin n).2.registers := by
  induction n generalizing m with
  | zero => exact .refl _
  | succ n ih =>
    rw [stepWithin]
    rcases m.fetch_cases with ⟨i, e, pending, h⟩ | ⟨x, hx, h⟩
    · rw [h]
      exact .refl _
    · have hfetch : m.registers.Follows
          ({ m with pending := x.pending }.setIp x.cursor.offset).registers :=
        .setWord _ (x := .ip) (by decide) (by decide) _
      rw [h]
      cases x.instruction.isPrefix with
      | true => exact hfetch.trans (ih _)
      | false =>
        have hexecute := follows_execute (i := x.instruction)
          (fun part hpart => mem_encoded_of_decodeWithin hx (Operands.mem_of_first hpart))
          ({ m with pending := x.pending }.setIp x.cursor.offset) m.ip
        refine hfetch.trans ?_
        rw [if_neg Bool.false_ne_true]
        dsimp only
        generalize execute _ _ _ = outcome at hexecute ⊢
        obtain ⟨_ | u | f, m'⟩ := outcome
        · exact hexecute
        · exact hexecute
        · exact hexecute

theorem follows_step (m : Machine) : m.registers.Follows m.step.2.registers :=
  m.follows_stepWithin 65536

/-! ## Traces -/

/-- The text of a trace that starts at the registers `r` and ends at `s`. -/
inductive Logs : Registers → String → Registers → Prop
  | nil (r : Registers) : Logs r "" r
  | cons {r s t : Registers} {text : String} (i : Instruction) (hstep : r.Follows s)
      (hrest : Logs s text t) : Logs r (traceLine i r s ++ ("\n" ++ text)) t

/-- A line of a trace ends at its newline, and what changed starts behind its semicolon. -/
theorem traceLine_append_inj {i j : Instruction} {r s s' : Registers} {text text' : String}
    (h : traceLine i r s ++ ("\n" ++ text) = traceLine j r s' ++ ("\n" ++ text')) :
    Registers.changes r s = Registers.changes r s' ∧ text = text' := by
  have hchars := congrArg String.toList h
  have hrender : ∀ i : Instruction, ';' ∉ i.render.toList ++ [' '] := by
    intro i
    simpa using i.lacks_render ';' (by simp)
  have hparts : (i.render.toList ++ [' ']) ++
        ';' :: ((Registers.changes r s).toList ++ '\n' :: text.toList) =
      (j.render.toList ++ [' ']) ++
        ';' :: ((Registers.changes r s').toList ++ '\n' :: text'.toList) := by
    simpa [traceLine] using hchars
  obtain ⟨-, hrest⟩ := append_cons_inj (hrender i) (hrender j) hparts
  obtain ⟨hchanges, htext⟩ := append_cons_inj (Registers.lacks_changes r s '\n' (by simp))
    (Registers.lacks_changes r s' '\n' (by simp)) hrest
  exact ⟨String.toList_inj.1 hchanges, String.toList_inj.1 htext⟩

/-- The text of a trace tells where it ends. -/
theorem Logs.right_unique {r s t : Registers} {text text' : String} (h : Logs r text s)
    (h' : Logs r text' t) (htext : text = text') : s = t := by
  induction h generalizing text' with
  | nil r =>
    cases h' with
    | nil => rfl
    | cons j hstep hrest =>
      have := congrArg String.toList htext
      simp at this
  | cons i hstep hrest ih =>
    cases h' with
    | nil =>
      have := congrArg String.toList htext
      simp at this
    | cons j hstep' hrest' =>
      -- the first lines agree, so that both traces go on from the same registers
      obtain ⟨hchanges, hrests⟩ := traceLine_append_inj htext
      cases Registers.changes_inj hchanges (hstep.blank.trans hstep'.blank.symm)
        (hstep.flags.trans hstep'.flags.symm)
      exact ih hrest' hrests

theorem text_of_record {o : Output} {trace : Option Output} {line : String}
    (h : record (some o) line = (none, trace)) :
    ∃ o' : Output, trace = some o' ∧ o'.text = o.text ++ (line ++ "\n") := by
  obtain ⟨pieces, room⟩ := o
  match room, h with
  | none, h =>
    cases h
    exact ⟨_, rfl, by simp [Output.text]⟩
  | some ⟨n + 1, e⟩, h =>
    cases h
    exact ⟨_, rfl, by simp [Output.text]⟩

/-- A run that finishes is over, or it takes a step, writes its line and is over or goes on. -/
theorem runFrom_cases {n steps : Nat} {m : Machine} {o : Output}
    (h : (runFrom n steps m (some o)).1 = .finished) :
    runFrom n steps m (some o) = (.finished, m, some o) ∨
      ∃ (i : Instruction) (m' : Machine) (o' : Output), m.step = (.executed i, m') ∧
        o'.text = o.text ++ (traceLine i m.registers m'.registers ++ "\n") ∧
        (runFrom n steps m (some o) = (.finished, m', some o') ∨
          ∃ k < n, runFrom n steps m (some o) = runFrom k (steps + 1) m' (some o')) := by
  cases hdone : m.done with
  | true => exact .inl (runFrom_of_done hdone)
  | false =>
    right
    cases n with
    | zero =>
      rw [runFrom, hdone, if_neg Bool.false_ne_true] at h
      split at h <;> cases h
    | succ n =>
      rw [runFrom, hdone, if_neg Bool.false_ne_true] at h ⊢
      cases hreached : m.limitReached steps with
      | true =>
        rw [hreached] at h
        cases h
      | false =>
        rw [hreached, if_neg Bool.false_ne_true] at h
        rw [if_neg Bool.false_ne_true]
        generalize m.step = result at h ⊢
        obtain ⟨i | _ | _ | _, m'⟩ := result
        · dsimp only at h ⊢
          cases hrecord : record (some o) (traceLine i m.registers m'.registers)
          rename_i e trace
          rw [hrecord] at h
          cases e with
          | none =>
            obtain ⟨o', rfl, htext⟩ := text_of_record hrecord
            refine ⟨i, m', o', rfl, htext, ?_⟩
            by_cases hhlt : i.operation = .hlt
            · exact .inl (if_pos hhlt)
            · exact .inr ⟨n, n.lt_succ_self, if_neg hhlt⟩
          | some e => cases h
        · cases h
        · cases h
        · cases h

/-- What a run that finishes adds to a trace logs what it does to the registers. -/
theorem logs_runFrom {n steps : Nat} {m : Machine} {o : Output}
    (h : (runFrom n steps m (some o)).1 = .finished) :
    ∃ text, traceText (runFrom n steps m (some o)).2.2 = o.text ++ text ∧
      Logs m.registers text (runFrom n steps m (some o)).2.1.registers := by
  induction n using Nat.strongRecOn generalizing steps m o with
  | ind n ih =>
    rcases runFrom_cases h with hrun | ⟨i, m', o', hstep, htext, hrun⟩
    · rw [hrun]
      exact ⟨"", String.append_empty.symm, .nil _⟩
    · have hfollows : m.registers.Follows m'.registers := by
        have := m.follows_step
        rwa [hstep] at this
      have hrest : ∃ text, traceText (runFrom n steps m (some o)).2.2 = o'.text ++ text ∧
          Logs m'.registers text (runFrom n steps m (some o)).2.1.registers := by
        rcases hrun with hrun | ⟨k, hk, hrun⟩
        · rw [hrun]
          exact ⟨"", String.append_empty.symm, .nil _⟩
        · rw [hrun] at h ⊢
          exact ih k hk h
      obtain ⟨text, htrace, hlogs⟩ := hrest
      refine ⟨_, ?_, .cons i hfollows hlogs⟩
      rw [htrace, htext]
      simp only [String.append_assoc]

/-- **A trace tells the registers.**  Two runs that start from the same registers and finish leave
the same registers if they write the same trace, whatever their programs, their memory and the
prefixes that wait.  The outputs may refuse writes as long as the runs do not fail for it. -/
theorem registers_eq_of_trace_eq {m m' : Machine} (hregisters : m.registers = m'.registers)
    (fuel fuel' : Nat) (room room' : Option Room) :
    let run := m.run fuel (some (.withRoom room))
    let run' := m'.run fuel' (some (.withRoom room'))
    run.1 = .finished → run'.1 = .finished → traceText run.2.2 = traceText run'.2.2 →
      run.2.1.registers = run'.2.1.registers := by
  intro run run' hrun hrun' htrace
  obtain ⟨text, htext, hlogs⟩ := logs_runFrom hrun
  obtain ⟨text', htext', hlogs'⟩ := logs_runFrom hrun'
  rw [← hregisters] at hlogs'
  refine hlogs.right_unique hlogs' ?_
  have hsame := htext.symm.trans (htrace.trans htext')
  exact (String.append_right_inj "").1 hsame

/-- `mov ax, bx` in both of its encodings and a jump out of the program, which is longer in one
case than in the other. -/
theorem registers_eq_of_trace_eq_mov_ax_bx :
    let start := Registers.zero.setWord .b 5
    let image := Image.zero.setRange 0 [0x89, 0xD8, 0xEB, 0x7F]
    let image' := Image.zero.setRange 0 [0x8B, 0xC3, 0xEB, 0x7F, 0xF4]
    let m := { new image 4 with registers := start }
    let m' := { new image' 5 with registers := start }
    let room : Room := ⟨2, ⟨"no space left on device"⟩⟩
    let run := m.run 0 (some (.withRoom none))
    let run' := m'.run 0 (some (.withRoom (some room)))
    run.1 = .finished ∧ run'.1 = .finished ∧ traceText run.2.2 = traceText run'.2.2 ∧
      run.2.1.registers = run'.2.1.registers := by
  intro start image image' m m' room run run'
  have hruns : run.1 = .finished ∧ run'.1 = .finished ∧
      traceText run.2.2 = traceText run'.2.2 := by
    decide +kernel
  obtain ⟨hrun, hrun', htrace⟩ := hruns
  exact ⟨hrun, hrun', htrace, registers_eq_of_trace_eq (show m.registers = m'.registers from rfl)
    0 0 none (some room) hrun hrun' htrace⟩

end Machine
end I8086
