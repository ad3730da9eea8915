import Mathlib.Algebra.Ring.Nat
import I8086.Proofs.Lanes

/-!
# The last write to a byte of a register

Programs write to whole registers and to halves of them in any order, and the parts overlap: `ax` is
`ah` and `al`.  What a register shows in the end can be said one byte at a time.

* `Registers.Write` is a write that a program can make, and `Registers.byte_write` says what one of
  them does to every byte.
* `Registers.lastByte` looks for the last write that has a byte in it, and
  `Registers.byte_writeAll` says that this is all that counts after any number of writes.
* `Registers.toNat_get` puts the bytes of a part together again.
-/

set_option autoImplicit false

namespace I8086

/-- A part that encodings have a number for. -/
abbrev RegisterPart.Encoded := { part : RegisterPart // part ∈ encoded }

/-- A register that a register file has a word for. -/
abbrev Register.Named := { x : Register // x.isNamed = true }

namespace Registers

/-! ## Writes -/

inductive Write
  /-- Replaces a register or one of its halves. -/
  | part (part : RegisterPart.Encoded) (v : UInt16)
  /-- Replaces the word of a register, which may also be `ip` or the flags. -/
  | word (x : Register.Named) (v : UInt16)

namespace Write

/-- What a write replaces. -/
def target : Write → RegisterPart
  | part p _ => p
  | word x _ => .whole x

def value : Write → UInt16
  | part _ v | word _ v => v

/-- What a write puts into byte `k` of its register: the bytes of the value, from the lowest one
on, go to the bytes of the target. -/
def byte (w : Write) (k : Nat) : Nat :=
  w.value.toNat / 256 ^ (k - w.target.offset.toNat) % 256

end Write

def write (r : Registers) : Write → Except Fault Registers
  | .part p v => r.set? p v
  | .word x v => r.setWord? x v

/-- One write after the other. -/
def writeAll (r : Registers) (writes : List Write) : Except Fault Registers :=
  writes.foldlM write r

/-- Byte `k` of a register as the last write left it that has this byte in its target; without
such a write, the byte that was there from the start. -/
def lastByte (r : Registers) (writes : List Write) (x : Register) (k : Nat) : Nat :=
  match writes.reverse.find? fun w => w.target.covers x k with
  | some w => w.byte k
  | none => r.byte x k

/-! ## One write -/

theorem byte_write (r : Registers) (w : Write) :
    ∃ s, r.write w = .ok s ∧ ∀ x, ∀ k < 2,
      s.byte x k = if w.target.covers x k then w.byte k else r.byte x k := by
  cases w with
  | part p v =>
    have hnamed := RegisterPart.isNamed_of_mem_encoded p.property
    exact ⟨r.set p v, if_pos hnamed, fun x k hk => byte_set p.property r v x hk⟩
  | word x v =>
    exact ⟨r.setWord x v, if_pos x.property, fun y k hk => byte_setWord r x.property v y hk⟩

/-! ## Any number of writes -/

theorem lastByte_cons (r : Registers) (w : Write) (rest : List Write) (x : Register) (k : Nat) :
    r.lastByte (w :: rest) x k =
      match rest.reverse.find? fun w => w.target.covers x k with
      | some w' => w'.byte k
      | none => if w.target.covers x k then w.byte k else r.byte x k := by
  rw [lastByte, List.reverse_cons, List.find?_append, List.find?_singleton]
  cases rest.reverse.find? fun w => w.target.covers x k with
  | some w' => rfl
  | none =>
    rw [Option.none_or]
    by_cases h : w.target.covers x k = true
    · rw [if_pos h, if_pos h]
    · rw [if_neg h, if_neg h]

theorem byte_writeAll (r : Registers) (writes : List Write) :
    ∃ s, r.writeAll writes = .ok s ∧ ∀ x, ∀ k < 2, s.byte x k = r.lastByte writes x k := by
  induction writes generalizing r with
  | nil => exact ⟨r, rfl, fun _ _ _ => rfl⟩
  | cons w rest ih =>
    -- what `w` leaves is where the rest starts from, and the last resort of its search
    obtain ⟨s, hs, hbyte⟩ := r.byte_write w
    obtain ⟨s', hs', hrest⟩ := ih s
    refine ⟨s', ?_, fun x k hk => ?_⟩
    · rw [writeAll, List.foldlM_cons, hs]
      exact hs'
    · rw [hrest x k hk, lastByte_cons, lastByte, hbyte x k hk]

theorem lastByte_of_forall_ne (r : Registers) {writes : List Write} {x : Register}
    (h : ∀ w ∈ writes, w.target.register ≠ x) (k : Nat) : r.lastByte writes x k = r.byte x k := by
  have hnone : (writes.reverse.find? fun w => w.target.covers x k) = none := by
    refine List.find?_eq_none.2 fun w hw hcovers => ?_
    exact h w (List.mem_reverse.1 hw) (RegisterPart.register_eq_of_covers hcovers)
  rw [lastByte, hnone]

/-! ## Reading -/

theorem toNat_get {part : RegisterPart} (hpart : part ∈ RegisterPart.encoded) (r : Registers) :
    (r.get part).toNat =
      if part.isWide then 256 * r.byte part.register 1 + r.byte part.register 0
      else r.byte part.register part.offset.toNat := by
  have hlt := (r.word part.register).toNat_lt
  rcases RegisterPart.cases_of_mem_encoded hpart with h | h | h <;> rw [h]
  · show (r.word part.register).toNat =
      256 * ((r.word part.register).toNat / 256 % 256) + (r.word part.register).toNat / 1 % 256
    omega
  · show (r.get (.low part.register)).toNat = (r.word part.register).toNat / 1 % 256
    rw [toNat_get_low, Nat.div_one]
  · show (r.get (.high part.register)).toNat = (r.word part.register).toNat / 256 % 256
    rw [toNat_get_high]
    omega

theorem word_eq_of_byte_eq {r s : Registers} {x : Register}
    (h : ∀ k < 2, s.byte x k = r.byte x k) : s.word x = r.word x := by
  have hlow : (s.word x).toNat / 1 % 256 = (r.word x).toNat / 1 % 256 := h 0 (by decide)
  have hhigh : (s.word x).toNat / 256 % 256 = (r.word x).toNat / 256 % 256 := h 1 (by decide)
  have hs := (s.word x).toNat_lt
  have hr := (r.word x).toNat_lt
  refine UInt16.toNat_inj.1 ?_
  omega

/-- **The bytes of registers do not see each other.**  Let any writes be made one after the other,
to parts that instructions can name and to whole registers.  All of them succeed.  Each byte of each
register is then what the last write left that has the byte in it, or has never changed; a register
that no write names keeps its word.  Reading a half gives its byte, and reading a whole register
gives the high byte times 256 plus the low byte. -/
theorem get_shows_last_writes (r : Registers) (writes : List Write) :
    ∃ s, r.writeAll writes = .ok s ∧
      (∀ x, ∀ k < 2, s.byte x k = r.lastByte writes x k) ∧
      (∀ x, (∀ w ∈ writes, w.target.register ≠ x) → s.word x = r.word x) ∧
      ∀ part : RegisterPart.Encoded, ∃ v, s.get? part = .ok v ∧
        v.toNat =
          if part.val.isWide then
            256 * r.lastByte writes part.val.register 1 + r.lastByte writes part.val.register 0
          else r.lastByte writes part.val.register part.val.offset.toNat := by
  obtain ⟨s, hs, hbyte⟩ := r.byte_writeAll writes
  refine ⟨s, hs, hbyte, fun x hx => word_eq_of_byte_eq fun k hk => ?_, fun part => ?_⟩
  · rw [hbyte x k hk, r.lastByte_of_forall_ne hx]
  · obtain ⟨part, hpart⟩ := part
    have hoffset : part.offset.toNat < 2 :=
      (show ∀ part ∈ RegisterPart.encoded, part.offset.toNat < 2 by decide) part hpart
    refine ⟨s.get part, if_pos (RegisterPart.isNamed_of_mem_encoded hpart), ?_⟩
    rw [toNat_get hpart, hbyte _ 0 (by decide), hbyte _ 1 (by decide), hbyte _ _ hoffset]

/-- `ax` is written as a whole, then each half, with the flags between: the low byte of `0x1ab` is
all that reaches `al`, and `dx` is not touched. -/
theorem ax_shows_last_writes :
    let writes : List Write :=
      [.part ⟨.whole .a, by decide⟩ 0x1234, .part ⟨.high .a, by decide⟩ 0xff,
        .word ⟨.flags, rfl⟩ 5, .part ⟨.low .a, by decide⟩ 0x1ab]
    ∃ s, zero.writeAll writes = .ok s ∧ s.byte .a 0 = 0xab ∧ s.byte .a 1 = 0xff ∧
      s.byte .flags 0 = 5 ∧ s.word .d = 0 ∧
      ∃ v, s.get? (.whole .a) = .ok v ∧ v.toNat = 0xffab := by
  intro writes
  obtain ⟨s, hs, hbyte, hword, hget⟩ := get_shows_last_writes zero writes
  obtain ⟨v, hv, hvalue⟩ := hget ⟨.whole .a, by decide⟩
  refine ⟨s, hs, ?_, ?_, ?_, ?_, v, hv, ?_⟩
  · rw [hbyte .a 0 (by decide)]
    decide
  · rw [hbyte .a 1 (by decide)]
    decide
  · rw [hbyte .flags 0 (by decide)]
    decide
  · exact hword .d (by decide)
  · rw [hvalue]
    decide

end Registers
end I8086
