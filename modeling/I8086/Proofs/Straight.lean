import I8086.Proofs.Arithmetic

/-!
# Instructions between registers

`Instruction.Straight` are the instructions between registers and constants that go on with the next
one.  `Machine.execute_straight` says that they always succeed, what they leave alone, and that it
does not matter where they stand.  So they can be executed one after the other without looking at
`ip`, which is `Machine.executeAll`.
-/

set_option autoImplicit false

namespace I8086

/-- `mov`, `add`, `sub` and `cmp` between registers and constants that leave `cx` and `cs` alone. -/
structure Instruction.Straight (i : Instruction) : Prop where
  operation_mem : i.operation ∈ [.mov, .add, .sub, .cmp]
  operand : ∀ x ∈ i.operands.toList, (∃ part, x = .register part) ∨ ∃ value, x = .immediate value
  destination : i.operation ≠ .cmp → ∀ part, i.operands.first = some (.register part) →
    part.register ≠ .c ∧ part.register ≠ .cs

theorem Instruction.Straight.readsTwo {i : Instruction} (h : i.Straight) :
    i.operation.readsTwo = true :=
  (show ∀ op ∈ [Operation.mov, .add, .sub, .cmp], op.readsTwo = true by decide) _ h.operation_mem

namespace Machine

theorem write_register {part : RegisterPart} (h : part ∈ RegisterPart.encoded) (m : Machine)
    (width : UInt8) (value : UInt32) :
    m.write (some (.register part)) width value =
      (none, { m with registers := m.registers.set part value.toUInt16 }) := by
  rw [write, Registers.set?, if_pos (RegisterPart.isNamed_of_mem_encoded h)]

/-- Operands that are not in memory are the same wherever the machine stands. -/
theorem read_setIp {x : Operand} (hx : x.Spelled)
    (hkind : (∃ part, x = .register part) ∨ ∃ value, x = .immediate value) (m : Machine)
    (v : UInt16) (i : Instruction) (width : UInt8) :
    (m.setIp v).read i (some x) width = m.read i (some x) width := by
  rcases hkind with ⟨part, rfl⟩ | ⟨value, rfl⟩
  · have hip : part.register ≠ .ip := (RegisterPart.ne_of_mem_encoded hx).2.2
    rw [read, read, Registers.get?, Registers.get?, setIp, Registers.get_setWord_of_ne _ hip]
  · rfl

section Straight

variable {i : Instruction} (hi : i.Straight) (hlegible : i.Legible)

include hi hlegible

theorem first_of_straight : ∃ part ∈ RegisterPart.encoded,
    i.operands.first = some (.register part) ∧
      (i.operation ≠ .cmp → ∀ x ∈ [Register.c, .cs, .ip], part.register ≠ x) := by
  obtain ⟨-, x, hfirst, hstored⟩ := hlegible.arranged.destination hi.readsTwo
  have hmem : x ∈ i.operands.toList := Operands.mem_of_first hfirst
  rcases hi.operand x hmem with ⟨part, rfl⟩ | ⟨value, rfl⟩
  · have hpart : part ∈ RegisterPart.encoded := hlegible.operand _ hmem
    refine ⟨part, hpart, hfirst, fun hop => ?_⟩
    obtain ⟨hc, hcs⟩ := hi.destination hop part hfirst
    simpa using ⟨hc, hcs, (RegisterPart.ne_of_mem_encoded hpart).2.2⟩
  · cases hstored

theorem read_straight (m : Machine) (width : UInt8) : ∃ a b, ∀ v,
    (m.setIp v).read i i.operands.first width = .ok a ∧
      (m.setIp v).read i i.operands.second width = .ok b := by
  have hsame : ∀ {x : Operand}, x ∈ i.operands.toList → ∀ v,
      (m.setIp v).read i (some x) width = m.read i (some x) width :=
    fun hx v => read_setIp (hlegible.operand _ hx) (hi.operand _ hx) m v i width
  obtain ⟨x, y, hfirst, hsecond, -, -⟩ := hlegible.shaped.pair hi.readsTwo
  obtain ⟨a, ha⟩ := hlegible.shaped.read_first m hi.readsTwo width
  obtain ⟨b, hb⟩ := hlegible.shaped.read_second m hi.readsTwo width
  refine ⟨a, b, fun v => ⟨?_, ?_⟩⟩
  · rw [← ha, hfirst, hsame (Operands.mem_of_first hfirst)]
  · rw [← hb, hsecond, hsame (Operands.mem_of_second hsecond)]

theorem arithmetic_straight (m : Machine) {part : RegisterPart}
    (hpart : part ∈ RegisterPart.encoded) (hfirst : i.operands.first = some (.register part))
    (subtract store : Bool)
    (hstore : store = true → ∀ x ∈ [Register.c, .cs, .ip], part.register ≠ x) : ∃ r : Registers,
    (∀ x ∈ [Register.c, .cs, .ip], r.word x = m.registers.word x) ∧
      ∀ v, (m.setIp v).arithmetic i subtract store = (none, { m with registers := r }.setIp v) := by
  obtain ⟨a, b, hread⟩ := read_straight hi hlegible m (width i i.operands.first)
  let result := if subtract then a - b else a + b
  let flags := Flags.ofOperands m.registers.flags a b result (width i i.operands.first) subtract
  have hother : ∀ x ∈ [Register.c, .cs, .ip],
      (m.registers.setFlags flags).word x = m.registers.word x := fun x hx =>
    m.registers.word_setWord_of_ne
      ((show ∀ x ∈ [Register.c, .cs, .ip], Register.flags ≠ x by decide) x hx) flags
  have hflags : ∀ v, (m.setIp v).registers.flags = m.registers.flags := fun v =>
    m.registers.word_setWord_of_ne (x := .ip) (y := .flags) (by decide) v
  have hset : ∀ v, (m.setIp v).registers.setFlags flags =
      (m.registers.setFlags flags).setWord .ip v := fun v =>
    m.registers.setWord_comm (x := .ip) (y := .flags) (by decide) v flags
  have hip : part.register ≠ .ip := (RegisterPart.ne_of_mem_encoded hpart).2.2
  cases store with
  | true =>
    refine ⟨(m.registers.setFlags flags).set part
      (result &&& Flags.widthMask (width i i.operands.first)).toUInt16, fun x hx => ?_, fun v => ?_⟩
    · rw [Registers.word_set_of_ne _ _ (hstore rfl x hx), hother x hx]
    · rw [arithmetic, (hread v).1, (hread v).2, hflags]
      dsimp only
      rw [if_pos rfl, hset, hfirst, write_register hpart, Registers.set_setWord_of_ne _ hip]
      rfl
  | false =>
    refine ⟨m.registers.setFlags flags, hother, fun v => ?_⟩
    rw [arithmetic, (hread v).1, (hread v).2, hflags]
    dsimp only
    rw [if_neg Bool.false_ne_true, hset]
    rfl

/-- **What the instructions of a body do.**  They always succeed, do not depend on where they
stand, and leave everything but some registers alone. -/
theorem execute_straight (m : Machine) : ∃ r : Registers,
    (∀ x ∈ [Register.c, .cs, .ip], r.word x = m.registers.word x) ∧
      ∀ v ip, (m.setIp v).execute i ip = (none, { m with registers := r }.setIp v) := by
  obtain ⟨part, hpart, hfirst, hother⟩ := first_of_straight hi hlegible
  by_cases hmov : i.operation = .mov
  · obtain ⟨a, b, hread⟩ := read_straight hi hlegible m (width i i.operands.first)
    have hip : part.register ≠ .ip := (RegisterPart.ne_of_mem_encoded hpart).2.2
    have hcmp : i.operation ≠ .cmp := by
      rw [hmov]
      decide
    refine ⟨m.registers.set part b.toUInt16, fun x hx => ?_, fun v ip => ?_⟩
    · exact m.registers.word_set_of_ne _ (hother hcmp x hx)
    · rw [execute, hmov]
      dsimp only
      rw [move, (hread v).2]
      dsimp only
      rw [hfirst, write_register hpart, setIp, setIp, Registers.set_setWord_of_ne _ hip]
  · have hop : i.operation ∈ [.add, .sub, .cmp] := by simpa [hmov] using hi.operation_mem
    obtain ⟨r, hr, harithmetic⟩ := arithmetic_straight hi hlegible m hpart hfirst
      (i.operation != .add) (i.operation != .cmp) fun h => hother (bne_iff_ne.1 h)
    exact ⟨r, hr, fun v ip => by rw [execute_of_mem hop, harithmetic]⟩

end Straight

@[simp] theorem setIp_setIp (m : Machine) (v w : UInt16) : (m.setIp v).setIp w = m.setIp w :=
  congrArg (fun registers => { m with registers }) (m.registers.setWord_setWord .ip v w)

@[simp] theorem setIp_ip (m : Machine) : m.setIp m.ip = m :=
  congrArg (fun registers => { m with registers }) (m.registers.setWord_word .ip)

/-- `m'` is `m` but for some registers, and `cx`, `cs` and `ip` are not among them. -/
def Keeps (m m' : Machine) : Prop :=
  ∃ r : Registers, m' = { m with registers := r } ∧
    ∀ x ∈ [Register.c, .cs, .ip], r.word x = m.registers.word x

theorem Keeps.refl (m : Machine) : m.Keeps m := ⟨m.registers, rfl, fun _ _ => rfl⟩

theorem Keeps.trans {m m' m'' : Machine} (h : m.Keeps m') (h' : m'.Keeps m'') : m.Keeps m'' := by
  obtain ⟨r, rfl, hr⟩ := h
  obtain ⟨r', rfl, hr'⟩ := h'
  exact ⟨r', rfl, fun x hx => (hr' x hx).trans (hr x hx)⟩

/-- Executes instructions one after the other, wherever they stand. -/
def executeAll (m : Machine) (is : List Instruction) : Machine :=
  is.foldl (fun m i => (m.execute i 0).2) m

section Straight

variable {i : Instruction} (hi : i.Straight) (hlegible : i.Legible)

include hi hlegible

theorem keeps_execute (m : Machine) (ip : UInt16) :
    (m.execute i ip).1 = none ∧ m.Keeps (m.execute i ip).2 := by
  obtain ⟨r, hr, hexecute⟩ := execute_straight hi hlegible m
  have hm := hexecute m.ip ip
  rw [setIp_ip] at hm
  have hip : ({ m with registers := r } : Machine).setIp m.ip = { m with registers := r } := by
    rw [show m.ip = ({ m with registers := r } : Machine).ip from (hr .ip (by simp)).symm, setIp_ip]
  rw [hm, hip]
  exact ⟨rfl, r, rfl, hr⟩

theorem execute_setIp (m : Machine) (v ip ip' : UInt16) :
    (m.setIp v).execute i ip = (none, (m.execute i ip').2.setIp v) := by
  obtain ⟨r, hr, hexecute⟩ := execute_straight hi hlegible m
  have hm := hexecute m.ip ip'
  rw [setIp_ip] at hm
  rw [hexecute, hm, setIp_setIp]

end Straight

section Body

variable {is : List Instruction} (hbody : ∀ i ∈ is, i.Straight ∧ i.Legible)

include hbody

theorem keeps_executeAll (m : Machine) : m.Keeps (m.executeAll is) := by
  induction is generalizing m with
  | nil => exact .refl m
  | cons i is ih =>
    rw [List.forall_mem_cons] at hbody
    exact (keeps_execute hbody.1.1 hbody.1.2 m 0).2.trans (ih hbody.2 _)

theorem executeAll_setIp (m : Machine) (v : UInt16) :
    (m.setIp v).executeAll is = (m.executeAll is).setIp v := by
  induction is generalizing m with
  | nil => rfl
  | cons i is ih =>
    rw [List.forall_mem_cons] at hbody
    rw [executeAll, List.foldl_cons, execute_setIp hbody.1.1 hbody.1.2 m v 0 0]
    exact ih hbody.2 _

end Body

end Machine
end I8086
