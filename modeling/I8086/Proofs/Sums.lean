import Mathlib.Algebra.Ring.Int.Defs
import I8086.Proofs.Widths

/-!
# Sums and differences

The machine adds and subtracts numbers of one or two bytes with 32 bits, and it reads the flags off
the result before that is cut to its width.  Masks and exclusive ors do the work, the same for both
widths and both operations.

* `Flags.Tells` says what the flags tell about two numbers in terms of integers: when there is a
  carry, a borrow or an overflow, and what the number is that is left.
* `Flags.tells_ofOperands` is the arithmetic behind it.
-/

set_option autoImplicit false

namespace I8086
namespace Flags

/-! ## Single flags -/

theorem or_and_right (a b c : UInt16) : (a ||| b) &&& c = (a &&& c) ||| (b &&& c) := by
  rw [← UInt16.toNat_inj]
  simp only [UInt16.toNat_and, UInt16.toNat_or]
  exact Nat.and_or_distrib_right ..

theorem has_or (a b wanted : UInt16) : has (a ||| b) wanted = (has a wanted || has b wanted) := by
  rw [has, has, has, or_and_right, Bool.eq_iff_iff, Bool.or_eq_true, bne_iff_ne, bne_iff_ne,
    bne_iff_ne, ne_eq, UInt16.or_eq_zero_iff, not_and_or]

theorem has_cleared (flags : UInt16) {wanted : UInt16} (h : ~~~arithmetic &&& wanted = 0) :
    has (flags &&& ~~~arithmetic) wanted = false := by
  rw [has, UInt16.and_assoc, h, UInt16.and_zero]
  rfl

/-- Every flag has a bit of its own, and none of them has another one. -/
theorem has_when_or : ∀ z s c p x o : Bool,
    let flags := when z zero ||| when s sign ||| when c carry ||| when p parity |||
      when x auxiliary ||| when o overflow
    has flags zero = z ∧ has flags sign = s ∧ has flags carry = c ∧ has flags parity = p ∧
      has flags auxiliary = x ∧ has flags overflow = o := by
  decide

/-- Arithmetic leaves the other flags alone. -/
theorem ofOperands_and_not (flags : UInt16) (a b result : UInt32) (width : UInt8)
    (subtract : Bool) :
    ofOperands flags a b result width subtract &&& ~~~arithmetic = flags &&& ~~~arithmetic := by
  have hwhen : ∀ flag : UInt16, flag &&& ~~~arithmetic = 0 →
      ∀ p, when p flag &&& ~~~arithmetic = 0 := by
    intro flag hflag p
    cases p with
    | false => exact UInt16.zero_and
    | true => exact hflag
  simp only [ofOperands, ofResult, or_and_right, hwhen zero rfl, hwhen sign rfl, hwhen carry rfl,
    hwhen parity rfl, hwhen auxiliary rfl, hwhen overflow rfl, UInt16.or_zero, UInt16.and_assoc,
    UInt16.and_self]

theorem decide_xor_decide (p q : Prop) [Decidable p] [Decidable q] :
    (decide p ^^ decide q) = decide (¬ (p ↔ q)) := by
  by_cases hp : p <;> by_cases hq : q <;> simp [hp, hq]

theorem and_two_pow_bne_zero {y : UInt32} {k : Nat} (hy : y.toNat = 2 ^ k) (x : UInt32) :
    (x &&& y != 0) = x.toNat.testBit k := by
  rw [Bool.eq_iff_iff, bne_iff_ne, ne_eq, ← UInt32.toNat_inj, UInt32.toNat_and, hy,
    Nat.and_two_pow]
  cases x.toNat.testBit k with
  | true => simp
  | false => simp

theorem Fits.and_signBit {width : UInt8} {n : Nat} (h : Fits width n) (x : UInt32) :
    (x &&& signBit width != 0) = x.toNat.testBit (n - 1) := by
  refine and_two_pow_bne_zero ?_ x
  rcases h with ⟨rfl, rfl⟩ | ⟨rfl, rfl⟩
  · rfl
  · rfl

/-! ## A result of 32 bits and the number that is left of it -/

section Cut

variable {width : UInt8} {n : Nat} (h : Fits width n) {r : UInt32} {c : BitVec n}
  (hr : r.toNat % 2 ^ n = c.toNat)

include h hr

omit h in
theorem testBit_of_cut {k : Nat} (hk : k < n) : r.toNat.testBit k = c.getLsbD k := by
  rw [BitVec.getLsbD, ← hr, Nat.testBit_mod_two_pow, decide_eq_true hk, Bool.true_and]

theorem Fits.isZero_of_cut : (r &&& widthMask width == 0) = decide (c = 0#n) := by
  rw [beq_eq_decide, decide_eq_decide, ← UInt32.toNat_inj, h.toNat_and_widthMask, hr,
    UInt32.toNat_zero, ← BitVec.toNat_inj, BitVec.toNat_ofNat, Nat.zero_mod]

theorem Fits.sign_of_cut : (r &&& widthMask width &&& signBit width != 0) = c.msb := by
  rw [h.and_signBit, h.toNat_and_widthMask, hr, BitVec.msb_eq_getLsbD_last]
  rfl

theorem Fits.parity_of_cut : hasEvenParity (r &&& widthMask width).toUInt8 =
    decide (((List.range 8).countP fun k => c.getLsbD k) % 2 = 0) := by
  have hones : ones (r &&& widthMask width).toUInt8 =
      (List.range 8).countP fun k => c.getLsbD k := by
    rw [ones, ← List.countP_eq_length_filter]
    refine List.countP_congr fun k hk => ?_
    rw [UInt32.toNat_toUInt8, h.toNat_and_widthMask, hr, Nat.testBit_mod_two_pow,
      decide_eq_true (List.mem_range.1 hk), Bool.true_and]
    rfl
  rw [hasEvenParity, hones]
  exact beq_eq_decide _ _

end Cut

/-! ## What the flags tell -/

/-- The sum or the difference of two numbers of `n` bits. -/
def result {n : Nat} (subtract : Bool) (a b : BitVec n) : BitVec n :=
  if subtract then a - b else a + b

/-- An integer that is a two's complement number of `n` bits. -/
def InRange (n : Nat) (z : Int) : Prop := -2 ^ (n - 1) ≤ z ∧ z < 2 ^ (n - 1)

instance (n : Nat) (z : Int) : Decidable (InRange n z) := inferInstanceAs (Decidable (_ ∧ _))

theorem ssubOverflow_eq_inRange {n : Nat} (a b : BitVec n) :
    a.ssubOverflow b = decide (¬ InRange n (a.toInt - b.toInt)) := by
  rw [BitVec.ssubOverflow, ← Bool.decide_or, decide_eq_decide, InRange]
  omega

theorem saddOverflow_eq_inRange {n : Nat} (a b : BitVec n) :
    a.saddOverflow b = decide (¬ InRange n (a.toInt + b.toInt)) := by
  rw [BitVec.saddOverflow, ← Bool.decide_or, decide_eq_decide, InRange]
  omega

/-- What the flags tell about two numbers of `n` bits that were added, or one of which was
subtracted from the other. -/
structure Tells {n : Nat} (subtract : Bool) (flags : UInt16) (a b : BitVec n) : Prop where
  carry : has flags carry =
    if subtract then decide (a.toNat < b.toNat) else decide (2 ^ n ≤ a.toNat + b.toNat)
  auxiliary : has flags auxiliary =
    if subtract then decide (a.toNat % 16 < b.toNat % 16)
    else decide (16 ≤ a.toNat % 16 + b.toNat % 16)
  overflow : has flags overflow =
    if subtract then decide (¬ InRange n (a.toInt - b.toInt))
    else decide (¬ InRange n (a.toInt + b.toInt))
  zero : has flags zero = decide (result subtract a b = 0#n)
  sign : has flags sign = (result subtract a b).msb
  parity : has flags parity =
    decide (((List.range 8).countP fun k => (result subtract a b).getLsbD k) % 2 = 0)

section Operands

variable {width : UInt8} {n : Nat} (h : Fits width n) (a b : BitVec n) (subtract : Bool)

/-- The sum or the difference with 32 bits. -/
def wideResult : UInt32 :=
  if subtract then .ofNat a.toNat - .ofNat b.toNat else .ofNat a.toNat + .ofNat b.toNat

include h

theorem Fits.toNat_ofNat : (UInt32.ofNat a.toNat).toNat = a.toNat := by
  refine UInt32.toNat_ofNat_of_lt' (Nat.lt_of_lt_of_le a.isLt ?_)
  rcases h with ⟨-, rfl⟩ | ⟨-, rfl⟩
  · decide
  · decide

theorem Fits.toNat_wideResult : (wideResult a b subtract).toNat =
    if subtract then (2 ^ 32 - b.toNat + a.toNat) % 2 ^ 32 else a.toNat + b.toNat := by
  have ha := a.isLt
  have hb := b.isLt
  rw [wideResult]
  cases subtract with
  | true =>
    rw [if_pos rfl, if_pos rfl, UInt32.toNat_sub, h.toNat_ofNat, h.toNat_ofNat]
  | false =>
    rw [if_neg Bool.false_ne_true, if_neg Bool.false_ne_true, UInt32.toNat_add, h.toNat_ofNat,
      h.toNat_ofNat, Nat.mod_eq_of_lt]
    rcases h with ⟨-, rfl⟩ | ⟨-, rfl⟩
    · omega
    · omega

/-- The result of 32 bits, cut to its width, is the result of `n` bits. -/
theorem Fits.toNat_wideResult_mod :
    (wideResult a b subtract).toNat % 2 ^ n = (result subtract a b).toNat := by
  have ha := a.isLt
  have hb := b.isLt
  rw [h.toNat_wideResult, result]
  cases subtract with
  | true =>
    rw [if_pos rfl, if_pos rfl, BitVec.toNat_sub]
    rcases h with ⟨-, rfl⟩ | ⟨-, rfl⟩
    · omega
    · omega
  | false => rw [if_neg Bool.false_ne_true, if_neg Bool.false_ne_true, BitVec.toNat_add]

/-- The result exceeds the width exactly if there was a carry or a borrow. -/
theorem Fits.widthMask_lt_wideResult : decide (wideResult a b subtract > widthMask width) =
    if subtract then decide (a.toNat < b.toNat) else decide (2 ^ n ≤ a.toNat + b.toNat) := by
  have hmask : (widthMask width).toNat = 2 ^ n - 1 := by
    rcases h with ⟨rfl, rfl⟩ | ⟨rfl, rfl⟩
    · rfl
    · rfl
  have ha := a.isLt
  have hb := b.isLt
  have hlt : wideResult a b subtract > widthMask width ↔
      2 ^ n - 1 < (wideResult a b subtract).toNat := hmask ▸ UInt32.lt_iff_toNat_lt
  rw [h.toNat_wideResult] at hlt
  cases subtract with
  | true =>
    refine decide_eq_decide.2 (hlt.trans ?_)
    rw [if_pos rfl]
    rcases h with ⟨-, rfl⟩ | ⟨-, rfl⟩
    · omega
    · omega
  | false =>
    refine decide_eq_decide.2 (hlt.trans ?_)
    rw [if_neg Bool.false_ne_true]
    have hpos := Nat.two_pow_pos n
    omega

/-- A carry out of the low nibble, or a borrow into it, changes the bit above. -/
theorem Fits.auxiliary_wideResult :
    ((UInt32.ofNat a.toNat ^^^ UInt32.ofNat b.toNat ^^^ wideResult a b subtract) &&& 0x10 != 0) =
      if subtract then decide (a.toNat % 16 < b.toNat % 16)
      else decide (16 ≤ a.toNat % 16 + b.toNat % 16) := by
  have ha := a.isLt
  have hb := b.isLt
  rw [and_two_pow_bne_zero (k := 4) rfl, UInt32.toNat_xor, UInt32.toNat_xor, Nat.testBit_xor,
    Nat.testBit_xor, h.toNat_ofNat, h.toNat_ofNat, h.toNat_wideResult]
  simp only [Nat.testBit_eq_decide_div_mod_eq, decide_xor_decide]
  cases subtract with
  | true =>
    rw [if_pos rfl, if_pos rfl, decide_eq_decide]
    rcases h with ⟨-, rfl⟩ | ⟨-, rfl⟩
    · omega
    · omega
  | false =>
    rw [if_neg Bool.false_ne_true, if_neg Bool.false_ne_true, decide_eq_decide]
    omega

/-- The operands differ in sign, and so do the first one and the difference. -/
theorem Fits.overflow_wideResult :
    ((if subtract then UInt32.ofNat a.toNat ^^^ UInt32.ofNat b.toNat
        else ~~~(UInt32.ofNat a.toNat ^^^ UInt32.ofNat b.toNat)) &&&
      (UInt32.ofNat a.toNat ^^^ wideResult a b subtract) &&& signBit width != 0) =
      if subtract then decide (¬ InRange n (a.toInt - b.toInt))
      else decide (¬ InRange n (a.toInt + b.toInt)) := by
  have hn : n - 1 < n := by
    rcases h with ⟨-, rfl⟩ | ⟨-, rfl⟩
    · decide
    · decide
  have hsign : ∀ {r : UInt32} {c : BitVec n}, r.toNat % 2 ^ n = c.toNat →
      r.toBitVec.getLsbD (n - 1) = c.msb := by
    intro r c hr
    rw [BitVec.msb_eq_getLsbD_last, ← testBit_of_cut hr hn]
    rfl
  have ha := hsign (show (UInt32.ofNat a.toNat).toNat % 2 ^ n = a.toNat by
    rw [h.toNat_ofNat, Nat.mod_eq_of_lt a.isLt])
  have hb := hsign (show (UInt32.ofNat b.toNat).toNat % 2 ^ n = b.toNat by
    rw [h.toNat_ofNat, Nat.mod_eq_of_lt b.isLt])
  have hr := hsign (h.toNat_wideResult_mod a b subtract)
  have hlt : n - 1 < 32 := by
    rcases h with ⟨-, rfl⟩ | ⟨-, rfl⟩
    · decide
    · decide
  rw [h.and_signBit]
  change (UInt32.toBitVec _).getLsbD _ = _
  cases subtract with
  | true =>
    rw [if_pos rfl, if_pos rfl, ← ssubOverflow_eq_inRange, BitVec.ssubOverflow_eq,
      UInt32.toBitVec_and, UInt32.toBitVec_xor, UInt32.toBitVec_xor, BitVec.getLsbD_and,
      BitVec.getLsbD_xor, BitVec.getLsbD_xor, ha, hb, hr, result, if_pos rfl]
    cases a.msb <;> cases b.msb <;> cases (a - b).msb <;> rfl
  | false =>
    rw [if_neg Bool.false_ne_true, if_neg Bool.false_ne_true, ← saddOverflow_eq_inRange,
      BitVec.saddOverflow_eq,
      UInt32.toBitVec_and, UInt32.toBitVec_not, UInt32.toBitVec_xor, UInt32.toBitVec_xor,
      BitVec.getLsbD_and, BitVec.getLsbD_not, BitVec.getLsbD_xor, BitVec.getLsbD_xor, ha, hb, hr,
      result, if_neg Bool.false_ne_true, decide_eq_true hlt]
    cases a.msb <;> cases b.msb <;> cases (a + b).msb <;> rfl

/-- The flags after an addition or a subtraction, whatever they were before. -/
theorem tells_ofOperands (flags : UInt16) :
    Tells subtract (ofOperands flags (.ofNat a.toNat) (.ofNat b.toNat) (wideResult a b subtract)
      width subtract) a b := by
  have hcut := h.toNat_wideResult_mod a b subtract
  have hflags := has_when_or (decide (result subtract a b = 0#n)) (result subtract a b).msb
    (if subtract then decide (a.toNat < b.toNat) else decide (2 ^ n ≤ a.toNat + b.toNat))
    (decide (((List.range 8).countP fun k => (result subtract a b).getLsbD k) % 2 = 0))
    (if subtract then decide (a.toNat % 16 < b.toNat % 16)
      else decide (16 ≤ a.toNat % 16 + b.toNat % 16))
    (if subtract then decide (¬ InRange n (a.toInt - b.toInt))
      else decide (¬ InRange n (a.toInt + b.toInt)))
  simp only [ofOperands, ofResult, h.isZero_of_cut hcut, h.sign_of_cut hcut,
    h.widthMask_lt_wideResult, h.parity_of_cut hcut, h.auxiliary_wideResult, h.overflow_wideResult,
    UInt16.or_assoc] at hflags ⊢
  obtain ⟨hz, hs, hc, hp, hx, ho⟩ := hflags
  refine ⟨?_, ?_, ?_, ?_, ?_, ?_⟩
  · rw [has_or, has_cleared flags (by decide), Bool.false_or, hc]
  · rw [has_or, has_cleared flags (by decide), Bool.false_or, hx]
  · rw [has_or, has_cleared flags (by decide), Bool.false_or, ho]
  · rw [has_or, has_cleared flags (by decide), Bool.false_or, hz]
  · rw [has_or, has_cleared flags (by decide), Bool.false_or, hs]
  · rw [has_or, has_cleared flags (by decide), Bool.false_or, hp]

end Operands
end Flags

end I8086
