import Mathlib.Algebra.Ring.Nat
import I8086.Proofs.Slots

/-!
# The bytes of a word

A register is two bytes, and encodings name it as a whole or name one of them.  A word in memory is
two bytes at addresses that follow each other.  Here reading and writing are said in terms of
numbers: which byte of a word is read, and which one is replaced while the other one is kept.  Writes
to different registers do not see each other.

`Registers.byte` takes a register apart, and `Registers.byte_set` and `Registers.byte_setWord` say
for every byte what a write leaves there.
-/

set_option autoImplicit false

namespace I8086

/-- Encodings name a register, its low byte or its high byte. -/
theorem RegisterPart.cases_of_mem_encoded {part : RegisterPart} (h : part ∈ encoded) :
    part = whole part.register ∨ part = low part.register ∨ part = high part.register :=
  (show ∀ part ∈ encoded, part = whole part.register ∨ part = low part.register ∨
    part = high part.register by decide) part h

/-- Encodings name neither the flags nor `ip`, and always a register. -/
theorem RegisterPart.ne_of_mem_encoded {part : RegisterPart} (h : part ∈ encoded) :
    part.register ≠ .blank ∧ part.register ≠ .flags ∧ part.register ≠ .ip :=
  (show ∀ part ∈ encoded, part.register ≠ .blank ∧ part.register ≠ .flags ∧
    part.register ≠ .ip by decide) part h

namespace Registers

variable (r : Registers) (x : Register) (v : UInt16)

theorem toNat_get_low : (r.get (.low x)).toNat = (r.word x).toNat % 256 := by
  rw [show r.get (.low x) = r.word x >>> 0 &&& 0xff from rfl, UInt16.shiftRight_zero,
    UInt16.toNat_and]
  exact Nat.and_two_pow_sub_one_eq_mod _ 8

theorem toNat_get_high : (r.get (.high x)).toNat = (r.word x).toNat / 256 := by
  have hlt := (r.word x).toNat_lt
  have hand := Nat.and_two_pow_sub_one_eq_mod ((r.word x).toNat / 256) 8
  rw [show r.get (.high x) = r.word x >>> 8 &&& 0xff from rfl, UInt16.toNat_and,
    UInt16.toNat_shiftRight, show (8 : UInt16).toNat % 16 = 8 from rfl, Nat.shiftRight_eq_div_pow]
  refine hand.trans (Nat.mod_eq_of_lt ?_)
  omega

/-- The high byte of a word, with zeros behind it. -/
theorem and_high (w : UInt16) : (w &&& 0xff00).toNat = (w.toNat / 256) <<< 8 := by
  rw [UInt16.toNat_and, ← Nat.shiftRight_eq_div_pow w.toNat 8]
  refine Nat.eq_of_testBit_eq fun k => ?_
  have hmask : (0xff00 : UInt16).toNat.testBit k = (decide (8 ≤ k) && decide (k - 8 < 8)) := by
    rw [show (0xff00 : UInt16).toNat = (2 ^ 8 - 1) <<< 8 from rfl, Nat.testBit_shiftLeft,
      Nat.testBit_two_pow_sub_one]
  rw [Nat.testBit_and, hmask, Nat.testBit_shiftLeft, Nat.testBit_shiftRight]
  by_cases hk : 8 ≤ k
  · rw [decide_eq_true hk, Bool.true_and, Bool.true_and, Nat.add_sub_cancel' hk]
    by_cases hlt : k - 8 < 8
    · rw [decide_eq_true hlt, Bool.and_true]
    · rw [decide_eq_false hlt, Bool.and_false]
      exact (Nat.testBit_lt_two_pow (Nat.lt_of_lt_of_le w.toNat_lt
        (Nat.pow_le_pow_right (by decide) (show 16 ≤ k by omega)))).symm
  · rw [decide_eq_false hk, Bool.false_and, Bool.and_false, Bool.false_and]

section Set

variable {x : Register} (hx : x ≠ .blank) (hnamed : x.isNamed = true)

include hx hnamed

theorem word_set_whole : (r.set (.whole x) v).word x = v := by
  have hset : r.set (.whole x) v = r.setWord x v := if_neg hx
  rw [hset, word_setWord_self r hnamed]

theorem toNat_word_set_low : ((r.set (.low x) v).word x).toNat =
    256 * ((r.word x).toNat / 256) + v.toNat % 256 := by
  have hset : r.set (.low x) v =
      r.setWord x ((r.word x &&& ~~~bytesUp 0xff 0) ||| bytesUp (v &&& 0xff) 0) := if_neg hx
  have hkept : ~~~bytesUp 0xff 0 = 0xff00 := by decide
  have hlow : (bytesUp (v &&& 0xff) 0).toNat = v.toNat % 256 := by
    rw [show bytesUp (v &&& 0xff) 0 = v &&& 0xff from UInt16.shiftLeft_zero, UInt16.toNat_and]
    exact Nat.and_two_pow_sub_one_eq_mod v.toNat 8
  rw [hset, word_setWord_self r hnamed, UInt16.toNat_or, hkept, and_high, hlow,
    ← Nat.shiftLeft_add_eq_or_of_lt (Nat.mod_lt _ (by decide)), Nat.shiftLeft_eq, Nat.mul_comm]

theorem toNat_word_set_high : ((r.set (.high x) v).word x).toNat =
    256 * (v.toNat % 256) + (r.word x).toNat % 256 := by
  have hset : r.set (.high x) v =
      r.setWord x ((r.word x &&& ~~~bytesUp 0xff 1) ||| bytesUp (v &&& 0xff) 1) := if_neg hx
  have hkept : ~~~bytesUp 0xff 1 = 0xff := by decide
  have hlow : (r.word x &&& 0xff).toNat = (r.word x).toNat % 256 :=
    Nat.and_two_pow_sub_one_eq_mod (r.word x).toNat 8
  have hhigh : (bytesUp (v &&& 0xff) 1).toNat = (v.toNat % 256) <<< 8 := by
    have hbyte : (v &&& 0xff).toNat = v.toNat % 256 := Nat.and_two_pow_sub_one_eq_mod v.toNat 8
    refine (UInt16.toNat_shiftLeft (v &&& 0xff) 8).trans ?_
    rw [hbyte, show (8 : UInt16).toNat % 16 = 8 from rfl, Nat.shiftLeft_eq]
    omega
  rw [hset, word_setWord_self r hnamed, UInt16.toNat_or, hkept, hhigh, hlow, Nat.or_comm,
    ← Nat.shiftLeft_add_eq_or_of_lt (Nat.mod_lt _ (by decide)), Nat.shiftLeft_eq, Nat.mul_comm]

end Set

/-- A part belongs to one register. -/
theorem word_set_of_ne {part : RegisterPart} {y : Register} (h : part.register ≠ y) :
    (r.set part v).word y = r.word y := by
  rw [set]
  split
  · rfl
  · split
    · exact word_setWord_of_ne r h v
    · exact word_setWord_of_ne r h _

/-! ## Whole registers -/

theorem ext_word {r s : Registers} (h : ∀ x ∈ Register.named, r.word x = s.word x) : r = s := by
  have hslot : ∀ i : Fin 15, ∃ x ∈ Register.named, x.slot? = some i := by decide
  obtain ⟨words⟩ := r
  obtain ⟨words'⟩ := s
  refine congrArg _ (Vector.ext fun i hi => ?_)
  obtain ⟨x, hx, hi⟩ := hslot ⟨i, hi⟩
  have hword := h x hx
  rw [word, word, hi] at hword
  exact hword

theorem setWord_comm {x y : Register} (h : x ≠ y) (v w : UInt16) :
    (r.setWord x v).setWord y w = (r.setWord y w).setWord x v := by
  simp only [setWord]
  cases hx : x.slot? with
  | none => rfl
  | some i =>
    cases hy : y.slot? with
    | none => rfl
    | some j =>
      have hij : i.val ≠ j.val := fun e => h (Register.eq_of_slot?_eq_some hx (Fin.ext e ▸ hy))
      exact congrArg mk (Vector.set_comm v w hij)

theorem setWord_setWord (x : Register) (v w : UInt16) :
    (r.setWord x v).setWord x w = r.setWord x w := by
  simp only [setWord]
  cases hx : x.slot? with
  | none => rfl
  | some i => exact congrArg mk (Vector.set_set ..)

theorem setWord_word (x : Register) : r.setWord x (r.word x) = r := by
  simp only [setWord, word]
  cases hx : x.slot? with
  | none => rfl
  | some i => exact congrArg mk (Vector.set_getElem_self ..)

theorem get_setWord_of_ne {part : RegisterPart} {y : Register} (h : part.register ≠ y)
    (v : UInt16) : (r.setWord y v).get part = r.get part := by
  rw [get, get, word_setWord_of_ne r h.symm]

theorem set_setWord_of_ne {part : RegisterPart} {y : Register} (h : part.register ≠ y)
    (v w : UInt16) : (r.setWord y v).set part w = (r.set part w).setWord y v := by
  rw [set, set]
  split
  · rfl
  · split
    · exact setWord_comm r h.symm v w
    · rw [word_setWord_of_ne r h.symm]
      exact setWord_comm r h.symm v _

end Registers

/-! ## Byte by byte -/

/-- Byte `k` of a register; the low byte is the first one. -/
def Registers.byte (r : Registers) (x : Register) (k : Nat) : Nat :=
  (r.word x).toNat / 256 ^ k % 256

/-- Whether a part has byte `k` of a register in it. -/
def RegisterPart.covers (part : RegisterPart) (x : Register) (k : Nat) : Bool :=
  part.register == x && part.offset.toNat ≤ k && k < part.offset.toNat + part.count.toNat

theorem RegisterPart.register_eq_of_covers {part : RegisterPart} {x : Register} {k : Nat}
    (h : part.covers x k = true) : part.register = x := by
  rw [covers, Bool.and_eq_true, Bool.and_eq_true] at h
  exact beq_iff_eq.1 h.1.1

namespace Registers

theorem byte_setWord (r : Registers) {x : Register} (hx : x.isNamed = true) (v : UInt16)
    (y : Register) {k : Nat} (hk : k < 2) :
    (r.setWord x v).byte y k =
      if (RegisterPart.whole x).covers y k then v.toNat / 256 ^ k % 256 else r.byte y k := by
  by_cases hxy : x = y
  · subst hxy
    have hcovers : (RegisterPart.whole x).covers x k = true := by
      simp [RegisterPart.covers, RegisterPart.whole, hk]
    rw [if_pos hcovers, byte, word_setWord_self r hx]
  · rw [if_neg fun h => hxy (RegisterPart.register_eq_of_covers h), byte,
      word_setWord_of_ne r hxy, byte]

/-- Writing to a part replaces the bytes that it has in it by the low bytes of the value, and no
other bytes. -/
theorem byte_set {part : RegisterPart} (hpart : part ∈ RegisterPart.encoded) (r : Registers)
    (v : UInt16) (x : Register) {k : Nat} (hk : k < 2) :
    (r.set part v).byte x k =
      if part.covers x k then v.toNat / 256 ^ (k - part.offset.toNat) % 256 else r.byte x k := by
  by_cases hx : part.register = x
  · obtain ⟨hblank, -, -⟩ := RegisterPart.ne_of_mem_encoded hpart
    have hnamed := RegisterPart.isNamed_of_mem_encoded hpart
    have hcases := RegisterPart.cases_of_mem_encoded hpart
    rw [hx] at hblank hnamed hcases
    have hk' : k = 0 ∨ k = 1 := by omega
    rcases hcases with rfl | rfl | rfl
    · rw [show r.set (.whole x) v = r.setWord x v from if_neg hblank]
      exact byte_setWord r hnamed v x hk
    · rw [byte, byte, toNat_word_set_low r v hblank hnamed]
      rcases hk' with rfl | rfl
      · rw [if_pos (by simp [RegisterPart.covers, RegisterPart.low])]
        show _ = v.toNat / 256 ^ 0 % 256
        omega
      · rw [if_neg (by simp [RegisterPart.covers, RegisterPart.low])]
        omega
    · rw [byte, byte, toNat_word_set_high r v hblank hnamed]
      rcases hk' with rfl | rfl
      · rw [if_neg (by simp [RegisterPart.covers, RegisterPart.high])]
        omega
      · rw [if_pos (by simp [RegisterPart.covers, RegisterPart.high])]
        show _ = v.toNat / 256 ^ 0 % 256
        omega
  · rw [if_neg fun h => hx (RegisterPart.register_eq_of_covers h), byte, byte,
      r.word_set_of_ne v hx]

end Registers

/-! ## Words in memory -/

namespace Image

theorem toNat_wordOf (low high : UInt8) :
    (wordOf low high).toNat = 256 * high.toNat + low.toNat := by
  have hhigh := high.toNat_lt
  have hlow := low.toNat_lt
  have hshift : (high.toUInt16 <<< 8).toNat = high.toNat <<< 8 := by
    rw [UInt16.toNat_shiftLeft, UInt8.toNat_toUInt16, show (8 : UInt16).toNat % 16 = 8 from rfl,
      Nat.shiftLeft_eq]
    omega
  rw [wordOf, UInt16.toNat_or, hshift, UInt8.toNat_toUInt16, Nat.or_comm,
    ← Nat.shiftLeft_add_eq_or_of_lt hlow, Nat.shiftLeft_eq, Nat.mul_comm]

variable (image : Image) (a : Address) (v : UInt16)

theorem toNat_getWord :
    (image.getWord a).toNat = (image.get a).toNat + 256 * (image.get (a + 1)).toNat := by
  rw [getWord, toNat_wordOf, Nat.add_comm]

theorem toNat_get_setWord : ((image.setWord a v).get a).toNat = v.toNat % 256 := by
  have hne : a + 1 ≠ a := by bv_omega
  rw [setWord, get_set_of_ne _ _ hne, get_set_self, UInt16.toNat_toUInt8]

theorem toNat_get_setWord_succ : ((image.setWord a v).get (a + 1)).toNat = v.toNat / 256 := by
  have hlt := v.toNat_lt
  rw [setWord, get_set_self, UInt16.toNat_toUInt8, UInt16.toNat_shiftRight,
    show (8 : UInt16).toNat % 16 = 8 from rfl, Nat.shiftRight_eq_div_pow]
  omega

end Image
end I8086
