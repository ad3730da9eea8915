import Mathlib.Logic.Relation
import I8086.Machine.Run

/-!
# What executing can change

Executing an instruction is a few changes of the machine, one after the other: the destination is
written, the flags are set, `cx` is counted down and `ip` is moved.  `Machine.Effect` lists them,
and `Machine.effects_execute` says that there are no others, whether the instruction is executed or
fails half-way.  What all of these changes leave alone is left alone by every instruction.
-/

set_option autoImplicit false

namespace I8086
namespace Machine

/-- A single change that executing `i` may make. -/
inductive Effect (i : Instruction) (m : Machine) : Machine → Prop
  | register (hop : i.operation ∈ [.mov, .add, .sub]) {part : RegisterPart}
      (hfirst : i.operands.first = some (.register part)) (v : UInt16) :
      Effect i m { m with registers := m.registers.set part v }
  | byte (hop : i.operation ∈ [.mov, .add, .sub]) {place : MemoryOperand}
      (hfirst : i.operands.first = some (.memory place)) {a : Address}
      (ha : m.addressOf place = .ok a) (v : UInt8) :
      Effect i m { m with image := m.image.set a v }
  | word (hop : i.operation ∈ [.mov, .add, .sub]) (hwide : i.modifiers.has .wide = true)
      {place : MemoryOperand} (hfirst : i.operands.first = some (.memory place)) {a : Address}
      (ha : m.addressOf place = .ok a) (v : UInt16) :
      Effect i m { m with image := m.image.setWord a v }
  | flags (hop : i.operation ∈ [.add, .sub, .cmp]) (a b result : UInt32) (width : UInt8)
      (subtract : Bool) :
      Effect i m { m with
        registers := m.registers.setFlags
          (Flags.ofOperands m.registers.flags a b result width subtract) }
  | count (hop : i.operation ∈ [.loop, .loopz, .loopnz]) :
      Effect i m { m with registers := m.registers.setWord .c (m.registers.word .c - 1) }
  | ip (hop : i.operation ∉ [.mov, .add, .sub, .cmp]) (v : UInt16) : Effect i m (m.setIp v)

/-- The changes that executing `i` may make, one after the other. -/
abbrev Effects (i : Instruction) : Machine → Machine → Prop :=
  Relation.ReflTransGen (Effect i)

section Execute

variable (m : Machine) {i : Instruction}

/-- Only a wide instruction has a word to write to memory. -/
theorem has_wide_of_width {place : MemoryOperand}
    (hwidth : width i (some (.memory place)) = 2) : i.modifiers.has .wide = true := by
  have heq : width i (some (.memory place)) = if i.modifiers.has .wide then 2 else 1 := rfl
  rw [heq] at hwidth
  split at hwidth
  · assumption
  · cases hwidth

theorem effects_write (hop : i.operation ∈ [.mov, .add, .sub]) (value : UInt32) :
    Effects i m (m.write i.operands.first (width i i.operands.first) value).2 := by
  rw [write.eq_def]
  split
  · rename_i part hfirst
    rw [Registers.set?]
    split
    · rename_i registers hset
      split at hset
      · cases hset
        exact .single (.register hop hfirst _)
      · cases hset
    · exact .refl
  · rename_i place hfirst
    split
    · rename_i a ha
      split
      · rename_i hwidth
        exact .single (.word hop (has_wide_of_width (hfirst ▸ hwidth)) hfirst ha _)
      · exact .single (.byte hop hfirst ha _)
    · exact .refl
  · exact .refl

theorem effects_jump (hop : i.operation ∉ [.mov, .add, .sub, .cmp]) (ip : UInt16)
    (taken : Bool) : Effects i m (m.jump i ip taken).2 := by
  rw [jump]
  split
  · split
    · exact .single (.ip hop _)
    · exact .refl
  · exact .refl

theorem effects_move (hop : i.operation ∈ [.mov, .add, .sub]) : Effects i m (m.move i).2 := by
  rw [move]
  cases m.read i i.operands.second (width i i.operands.first) with
  | error f => exact .refl
  | ok value => exact m.effects_write hop value

theorem effects_arithmetic (hop : i.operation ∈ [.add, .sub, .cmp]) (subtract : Bool) {store : Bool}
    (hstore : store = true → i.operation ∈ [.mov, .add, .sub]) :
    Effects i m (m.arithmetic i subtract store).2 := by
  rw [arithmetic]
  cases m.read i i.operands.first (width i i.operands.first) with
  | error f => exact .refl
  | ok a =>
    cases m.read i i.operands.second (width i i.operands.first) with
    | error f => exact .refl
    | ok b =>
      have hflags := Effect.flags (m := m) hop a b (if subtract then a - b else a + b)
        (width i i.operands.first) subtract
      cases store with
      | false => exact .single hflags
      | true => exact .head hflags (effects_write _ (hstore rfl) ..)

theorem effects_countDown (hop : i.operation ∈ [.loop, .loopz, .loopnz]) (ip : UInt16)
    (holds : Bool) : Effects i m (m.countDown i ip holds).2 := by
  have hjump : i.operation ∉ [.mov, .add, .sub, .cmp] :=
    (show ∀ op ∈ [Operation.loop, .loopz, .loopnz], op ∉ [.mov, .add, .sub, .cmp] by decide) _ hop
  exact .head (.count hop) (effects_jump { m with registers := _ } hjump ..)

theorem refuse_snd (i : Instruction) (u : Unsupported) : (m.refuse i u).2 = m := by
  rw [refuse]
  split <;> rfl

/-- **Executing an instruction** changes the machine in these ways only. -/
theorem effects_execute (i : Instruction) (ip : UInt16) : Effects i m (m.execute i ip).2 := by
  rw [execute.eq_def]
  split <;> rename_i hop
  · exact m.effects_move (by simp [hop])
  · exact m.effects_arithmetic (by simp [hop]) _ (by simp [hop])
  · exact m.effects_arithmetic (by simp [hop]) _ (by simp [hop])
  · exact m.effects_arithmetic (by simp [hop]) _ (by simp)
  · split
    · exact m.effects_jump (by simp [hop]) ..
    · rw [refuse_snd]
  · exact m.effects_jump (by simp [hop]) ..
  · exact m.effects_countDown (by simp [hop]) ..
  · exact m.effects_countDown (by simp [hop]) ..
  · exact m.effects_countDown (by simp [hop]) ..
  · exact .refl
  · exact .refl
  · split
    · exact m.effects_jump (by simp_all) ..
    · rw [refuse_snd]

/-- What every single change does to a machine, and several of them in a row, is what executing does
to it. -/
theorem relates_execute {R : Machine → Machine → Prop} (hrefl : ∀ m, R m m)
    (htrans : ∀ {m₁ m₂ m₃}, R m₁ m₂ → R m₂ m₃ → R m₁ m₃)
    (heffect : ∀ {m m'}, Effect i m m' → R m m') (ip : UInt16) : R m (m.execute i ip).2 := by
  have heffects := m.effects_execute i ip
  generalize (m.execute i ip).2 = m' at heffects ⊢
  induction heffects with
  | refl => exact hrefl m
  | tail _ h ih => exact htrans ih (heffect h)

end Execute
end Machine
end I8086
