import I8086.Proofs.Lanes
import I8086.Proofs.Spelling

/-!
# Encodings that mean the same

Most of what `mov`, `add`, `sub` and `cmp` do can be written down in more than one way.  A small
immediate or displacement has a short form that is sign extended, two registers can trade the
roles of `reg` and `r/m`, and the accumulator and the registers have forms of their own.  The
instructions that are decoded differ, down to the number that an immediate holds.  Executing them
makes no difference.

* `Opcode.Alternative` lists the pairs of byte strings.
* `Machine.execute_congr` says which parts of an instruction matter: the operation, the width, the
  destination, and the value of the source at that width.
* `SameMeaning` is what two strings of a pair have in common, and `Opcode.Alternative.sameMeaning`
  finds it for every pair.
-/

set_option autoImplicit false

namespace I8086

/-! ## The pairs -/

namespace Opcode

/-- The high byte of a byte that is sign extended to a word. -/
def signByte (b : UInt8) : UInt8 := if b < 0x80 then 0x00 else 0xFF

/-- A first byte that ends in two flags. -/
def flagged (base : Nat) (p q : Bool) : UInt8 :=
  .ofNat (base + 2 * p.toNat + q.toNat)

/-- The first bytes of `add`, `sub`, `cmp` and `mov` with a register and a place, the flags being
zero. -/
def pairBases : List Nat := [0x00, 0x28, 0x38, 0x88]

/-- The numbers of `add`, `sub` and `cmp` among the arithmetic operations. -/
def digits : List Nat := [0, 5, 7]

/-- Two ways to write down an instruction. -/
inductive Alternative : List UInt8 → List UInt8 → Prop
  /-- `83` and `81`: a word that is written as one byte. -/
  | extendedWord (md : Fin 4) (g q : Fin 8) (disp : List UInt8) (i : UInt8) (hg : g.val ∈ digits)
    (hdisp : disp.length = dispCount md q) :
    Alternative (0x83 :: modRm md g q :: (disp ++ [i]))
      (0x81 :: modRm md g q :: (disp ++ [i, signByte i]))
  /-- `82` and `80`: a byte has nothing to extend. -/
  | extendedByte (md : Fin 4) (g q : Fin 8) (disp : List UInt8) (i : UInt8) (hg : g.val ∈ digits)
    (hdisp : disp.length = dispCount md q) :
    Alternative (0x82 :: modRm md g q :: (disp ++ [i])) (0x80 :: modRm md g q :: (disp ++ [i]))
  /-- One byte or two of displacement, with a register. -/
  | dispRegister (base : Nat) (d w : Bool) (r q : Fin 8) (disp : UInt8)
    (hbase : base ∈ pairBases) :
    Alternative [flagged base d w, modRm 1 r q, disp]
      [flagged base d w, modRm 2 r q, disp, signByte disp]
  /-- One byte or two of displacement, with an immediate. -/
  | dispImmediate (s w : Bool) (g q : Fin 8) (disp : UInt8) (data : List UInt8)
    (hg : g.val ∈ digits) (hdata : data.length = if !s && w then 2 else 1) :
    Alternative (flagged 0x80 s w :: modRm 1 g q :: disp :: data)
      (flagged 0x80 s w :: modRm 2 g q :: disp :: signByte disp :: data)
  /-- One byte or two of displacement, with an immediate that is moved. -/
  | dispMove (w : Bool) (q : Fin 8) (disp : UInt8) (data : List UInt8)
    (hdata : data.length = if w then 2 else 1) :
    Alternative (flagged 0xC6 false w :: modRm 1 0 q :: disp :: data)
      (flagged 0xC6 false w :: modRm 2 0 q :: disp :: signByte disp :: data)
  /-- One byte or two of displacement, with a segment register. -/
  | dispSegment (d : Bool) (r q : Fin 8) (disp : UInt8) (hr : r.val < 4) :
    Alternative [flagged 0x8C d false, modRm 1 r q, disp]
      [flagged 0x8C d false, modRm 2 r q, disp, signByte disp]
  /-- Two registers, of which either one can be `reg`. -/
  | exchanged (base : Nat) (w : Bool) (x y : Fin 8) (hbase : base ∈ pairBases) :
    Alternative [flagged base false w, modRm 3 x y] [flagged base true w, modRm 3 y x]
  /-- An immediate for the accumulator, which is register zero. -/
  | accumulator (g : Fin 8) (w : Bool) (data : List UInt8) (hg : g.val ∈ digits)
    (hdata : data.length = if w then 2 else 1) :
    Alternative (flagged (8 * g.val + 4) false w :: data)
      (flagged 0x80 false w :: modRm 3 g 0 :: data)
  /-- `A0` to `A3`: the accumulator and an address. -/
  | absolute (toAccumulator w : Bool) (low high : UInt8) :
    Alternative [flagged 0xA0 (!toAccumulator) w, low, high]
      [flagged 0x88 toAccumulator w, modRm 0 0 6, low, high]
  /-- `B0` to `BF`: an immediate for a register. -/
  | register (r : Fin 8) (w : Bool) (data : List UInt8)
    (hdata : data.length = if w then 2 else 1) :
    Alternative (.ofNat (0xB0 + 8 * w.toNat + r.val) :: data)
      (flagged 0xC6 false w :: modRm 3 0 r :: data)

end Opcode

/-! ## What execution depends on -/

/-- What is left of an operand when it is read at a width. -/
def Operand.masked (width : UInt8) : Operand → Operand
  | .immediate value => .immediate (value &&& Flags.widthMask width)
  | x => x

theorem Operand.masked_inSegment (width : UInt8) (segment : Register) (x : Operand) :
    (x.inSegment segment).masked width = (x.masked width).inSegment segment := by
  cases x <;> rfl

namespace Machine

theorem read_masked (m : Machine) (i : Instruction) (width : UInt8) (x : Operand) :
    m.read i (some (x.masked width)) width = m.read i (some x) width := by
  cases x with
  | immediate value =>
    have hmask : value &&& Flags.widthMask width &&& Flags.widthMask width =
        value &&& Flags.widthMask width := by rw [UInt32.and_assoc, UInt32.and_self]
    exact congrArg Except.ok hmask
  | register part => rfl
  | memory place => rfl
  | relative distance => rfl

theorem read_congr {i j : Instruction} (h : i.operation = j.operation) (m : Machine)
    (x : Option Operand) (width : UInt8) : m.read i x width = m.read j x width := by
  rw [read.eq_def, read.eq_def, h]

theorem execute_congr {i j : Instruction} {w : UInt8} (hop : i.operation = j.operation)
    (hreads : j.operation.readsTwo = true) (hfirst : i.operands.first = j.operands.first)
    (hi : width i i.operands.first = w) (hj : width j j.operands.first = w)
    (hsecond : ∀ m : Machine, m.read i i.operands.second w = m.read j j.operands.second w)
    (m : Machine) (ip : UInt16) : m.execute i ip = m.execute j ip := by
  have hmove : m.move i = m.move j := by
    rw [move, move, hi, hj, hsecond, hfirst]
  have harithmetic : ∀ subtract store,
      m.arithmetic i subtract store = m.arithmetic j subtract store := by
    intro subtract store
    rw [arithmetic, arithmetic, hi, hj, hsecond, hfirst, read_congr hop]
  rw [execute, execute, hop]
  generalize hj' : j.operation = op at hreads
  cases op <;> cases hreads
  · exact hmove
  · exact harithmetic _ _
  · exact harithmetic _ _
  · exact harithmetic _ _

end Machine

theorem Operation.mem_of_readsTwo {op : Operation} (h : op.readsTwo = true) :
    op ∈ [.mov, .add, .sub, .cmp] := by
  cases op <;> cases h <;> decide

/-! ## Two streams -/

/-- Both streams spell the same operation on operands of the same width, with the same destination
and a source that is read as the same number. -/
def SameMeaning (bytes bytes' : Nat → UInt8) (size size' : Nat) : Prop :=
  ∃ (op : Operation) (wide : Bool) (a b b' : Operand), op.readsTwo = true ∧
    Spells bytes op wide a b size ∧ Spells bytes' op wide a b' size' ∧
    b.masked (if wide then 2 else 1) = b'.masked (if wide then 2 else 1)

theorem SameMeaning.execute_eq {image image' : Image} {cursor cursor' : Cursor} {size size' : Nat}
    (h : SameMeaning (image.along cursor) (image'.along cursor') size size')
    (calls : List (Image × Cursor)) :
    ∃ x y, decodeOne (Pending.clear.through calls) image cursor = .ok x ∧
      decodeOne (Pending.clear.through calls) image' cursor' = .ok y ∧
      x.instruction.size.toNat = size ∧ y.instruction.size.toNat = size' ∧
      x.instruction.operation = y.instruction.operation ∧
      x.instruction.operation.readsTwo = true ∧
      ∀ (m : Machine) (ip : UInt16), m.execute x.instruction ip = m.execute y.instruction ip := by
  obtain ⟨op, wide, a, b, b', hreads, hspells, hspells', hsame⟩ := h
  obtain ⟨x, hx, hsize, hop, hwidth, hoperands⟩ := hspells.decodeOne hreads calls
  obtain ⟨y, hy, hsize', hop', hwidth', hoperands'⟩ := hspells'.decodeOne hreads calls
  refine ⟨x, y, hx, hy, hsize, hsize', hop.trans hop'.symm, hop ▸ hreads, fun m ip => ?_⟩
  refine Machine.execute_congr (hop.trans hop'.symm) (hop' ▸ hreads) ?_ hwidth hwidth' ?_ m ip
  · rw [hoperands, hoperands']
  · intro m
    rw [hoperands, hoperands', ← Machine.read_masked, Operand.masked_inSegment, hsame,
      ← Operand.masked_inSegment, Machine.read_masked]
    exact Machine.read_congr (hop.trans hop'.symm) m _ _

/-! ## Sign extension -/

/-- The two bytes of a byte that is sign extended to a word. -/
theorem wordOf_signByte (b : UInt8) :
    Image.wordOf b (Opcode.signByte b) = b.toInt8.toInt16.toUInt16 := by
  have hb := b.toNat_lt
  have hextended : b.toInt8.toInt16.toUInt16.toNat =
      b.toNat + if 128 ≤ b.toNat then 65280 else 0 := by
    refine (@BitVec.toNat_signExtend 8 b.toBitVec 16).trans ?_
    rw [BitVec.msb_eq_decide, BitVec.toNat_setWidth, UInt8.toNat_toBitVec,
      Nat.mod_eq_of_lt (by omega)]
    simp only [decide_eq_true_eq]
  have hlt : b < 0x80 ↔ b.toNat < 128 := UInt8.lt_iff_toNat_lt
  rw [← UInt16.toNat_inj, hextended, Image.toNat_wordOf, Opcode.signByte]
  by_cases hsign : b.toNat < 128
  · rw [if_pos (hlt.2 hsign), if_neg (by omega), UInt8.toNat_zero]
    omega
  · rw [if_neg (hlt.not.2 hsign), if_pos (by omega), show (0xFF : UInt8).toNat = 255 from rfl]
    omega

/-- A sign extended byte is read as the word that its two bytes make. -/
theorem masked_extend_word (b : UInt8) :
    (Operand.immediate (BitReader.extend true b)).masked 2 =
      (Operand.immediate (Image.wordOf b (Opcode.signByte b)).toUInt32).masked 2 := by
  have hmask : ∀ x : UInt32, x &&& Flags.widthMask 2 = x.toUInt16.toUInt32 := by
    intro x
    rw [← UInt32.toNat_inj, Flags.Fits.toNat_and_widthMask (.inr ⟨rfl, rfl⟩), UInt16.toNat_toUInt32,
      UInt32.toNat_toUInt16]
  rw [Operand.masked, Operand.masked, hmask, hmask, toUInt16_extend, UInt16.toUInt16_toUInt32,
    wordOf_signByte]

/-- At the width of a byte, sign extension cannot be seen. -/
theorem masked_extend_byte (b : UInt8) :
    (Operand.immediate (BitReader.extend true b)).masked 1 =
      (Operand.immediate (BitReader.extend false b)).masked 1 := by
  have hmask : ∀ x : UInt32, x &&& Flags.widthMask 1 = x.toUInt8.toUInt32 := by
    intro x
    rw [← UInt32.toNat_inj, Flags.Fits.toNat_and_widthMask (.inl ⟨rfl, rfl⟩), UInt8.toNat_toUInt32,
      UInt32.toNat_toUInt8]
  have hextend : (BitReader.extend true b).toUInt8 = b := by
    rw [← UInt8.toBitVec_inj]
    exact (@setWidth_signExtend 8 8 32 b.toBitVec (by decide)).trans (BitVec.signExtend_eq _)
  have hplain : (BitReader.extend false b).toUInt8 = b := UInt8.toUInt8_toUInt32 b
  rw [Operand.masked, Operand.masked, hmask, hmask, hextend, hplain]

/-- A displacement of one byte, and the same one of two bytes. -/
theorem Opcode.place_one_eq_two {bytes bytes' : Nat → UInt8} {d : UInt8} (h : bytes 2 = d)
    (h' : bytes' 2 = d) (hsign : bytes' 3 = signByte d) (q : Fin 8) (wide : Bool) :
    place bytes 1 q wide = place bytes' 2 q wide := by
  have hdisplacement : displacement bytes 1 q = displacement bytes' 2 q := by
    have hword : (Image.wordOf (bytes' 2) (bytes' 3)).toInt16 = (bytes 2).toInt8.toInt16 := by
      rw [h, h', hsign, wordOf_signByte]
      rfl
    exact hword.symm
  have hmod : (1 : Fin 4) ≠ 3 ∧ (2 : Fin 4) ≠ 3 := by decide
  rw [place, place, if_neg hmod.1, if_neg hmod.2, hdisplacement]
  rfl

/-! ## Strings of bytes -/

/-- The stream starts with the bytes of a list. -/
def Starts (bytes : Nat → UInt8) (xs : List UInt8) : Prop :=
  ∀ k b, xs[k]? = some b → bytes k = b

namespace Starts

variable {bytes bytes' : Nat → UInt8}

theorem append_right {xs ys : List UInt8} (h : Starts bytes (xs ++ ys)) :
    Starts (fun k => bytes (xs.length + k)) ys := by
  intro k b hk
  refine h (xs.length + k) b ?_
  rwa [List.getElem?_append_right (Nat.le_add_right _ _), Nat.add_sub_cancel_left]

/-- The number that data bytes stand for does not depend on where they are. -/
theorem numberAt_eq {n n' : Nat} {data : List UInt8} (h : Starts (fun k => bytes (n + k)) data)
    (h' : Starts (fun k => bytes' (n' + k)) data) {wide : Bool}
    (hlen : data.length = if wide then 2 else 1) (signed : Bool) :
    numberAt bytes n wide signed = numberAt bytes' n' wide signed := by
  have hbyte : ∀ k < data.length, bytes (n + k) = bytes' (n' + k) := by
    intro k hk
    exact (h k _ (List.getElem?_eq_getElem hk)).trans (h' k _ (List.getElem?_eq_getElem hk)).symm
  have hzero : bytes n = bytes' n' := hbyte 0 (by rw [hlen]; cases wide <;> decide)
  cases wide with
  | false => exact congrArg (BitReader.extend signed) hzero
  | true => rw [numberAt, numberAt, hzero, hbyte 1 (by rw [hlen]; decide)]

/-- The displacement is the same, whatever is in front of it and behind it. -/
theorem place_eq {head head' disp rest rest' : List UInt8} (hhead : head.length = 2)
    (hhead' : head'.length = 2) (h : Starts bytes (head ++ (disp ++ rest)))
    (h' : Starts bytes' (head' ++ (disp ++ rest'))) {md : Fin 4} {q : Fin 8}
    (hdisp : disp.length = Opcode.dispCount md q) (wide : Bool) :
    Opcode.place bytes md q wide = Opcode.place bytes' md q wide := by
  refine Opcode.place_congr (fun k hk => ?_) wide
  have hk : k < disp.length := hdisp ▸ hk
  have hget : ∀ rest : List UInt8, (disp ++ rest)[k]? = some disp[k] := by
    intro rest
    rw [List.getElem?_append_left hk, List.getElem?_eq_getElem hk]
  have h2 := h.append_right k _ (hget rest)
  have h2' := h'.append_right k _ (hget rest')
  rw [hhead] at h2
  rw [hhead'] at h2'
  exact h2.trans h2'.symm

/-- What is behind the displacement. -/
theorem behind_disp {head disp data : List UInt8} (hhead : head.length = 2)
    (h : Starts bytes (head ++ (disp ++ data))) {md : Fin 4} {q : Fin 8}
    (hdisp : disp.length = Opcode.dispCount md q) :
    Starts (fun k => bytes (2 + Opcode.dispCount md q + k)) data := by
  have hdata := h.append_right.append_right
  rw [hhead, hdisp] at hdata
  simpa only [Nat.add_assoc] using hdata

theorem layOut (image : Image) (cursor : Cursor) {xs : List UInt8} (h : xs.length ≤ 65536) :
    Starts ((image.layOut cursor xs).along cursor) xs := by
  intro k b hk
  obtain ⟨hlt, rfl⟩ := List.getElem?_eq_some_iff.1 hk
  exact Image.along_layOut h hlt

end Starts

/-! ## The formats of a pair -/

theorem Opcode.lt_of_mem_pairBases {base : Nat} (h : base ∈ pairBases) : base < 253 := by
  simp only [pairBases, List.mem_cons, List.not_mem_nil, or_false] at h
  omega

theorem Opcode.toNat_flagged {base : Nat} (h : base < 253) (p q : Bool) :
    (flagged base p q).toNat = base + 2 * p.toNat + q.toNat := by
  have hp := p.toNat_le
  have hq := q.toNat_le
  exact UInt8.toNat_ofNat_of_lt' (show _ < 256 by omega)

namespace Table

theorem mem_formats_of_mem_arithmetic {f : Format} (h : f ∈ arithmetic) : f ∈ formats := by
  simp only [formats, List.mem_append]
  tauto

/-- The formats of `add`, `sub` and `cmp`. -/
theorem binary_mem {g : Fin 8} (hg : g.val ∈ Opcode.digits) :
    ∃ op : Operation, op.readsTwo = true ∧ registerPlace op (.ofNat (2 * g.val)) ∈ formats ∧
      placeImmediate op (.ofNat g.val) ∈ formats ∧
      accumulatorImmediate op (.ofNat (4 * g.val + 2)) ∈ formats := by
  have hall : ∀ op opcode pattern accumulator,
      (∀ f ∈ binary op opcode pattern accumulator, f ∈ formats) →
      registerPlace op opcode ∈ formats ∧ placeImmediate op pattern ∈ formats ∧
        accumulatorImmediate op accumulator ∈ formats := by
    intro op opcode pattern accumulator h
    exact ⟨h _ (List.mem_of_getElem? (show _[0]? = some _ from rfl)),
      h _ (List.mem_of_getElem? (show _[1]? = some _ from rfl)),
      h _ (List.mem_of_getElem? (show _[2]? = some _ from rfl))⟩
  rw [Opcode.digits, List.mem_cons, List.mem_cons, List.mem_singleton] at hg
  rcases hg with h | h | h <;> rw [h]
  · refine ⟨.add, rfl, hall .add _ _ _ fun f hf => mem_formats_of_mem_arithmetic ?_⟩
    simp only [arithmetic, List.mem_append]
    tauto
  · refine ⟨.sub, rfl, hall .sub _ _ _ fun f hf => mem_formats_of_mem_arithmetic ?_⟩
    simp only [arithmetic, List.mem_append]
    tauto
  · refine ⟨.cmp, rfl, hall .cmp _ _ _ fun f hf => mem_formats_of_mem_arithmetic ?_⟩
    simp only [arithmetic, List.mem_append]
    tauto

theorem mov_registerPlace_mem : registerPlace .mov 0b100010 ∈ formats :=
  List.mem_of_getElem? (show formats[0]? = some _ from rfl)

/-- The formats with a register and a place, `mov` among them. -/
theorem registerPlace_mem {base : Nat} (hbase : base ∈ Opcode.pairBases) :
    ∃ (op : Operation) (opcode : UInt32), op.readsTwo = true ∧
      registerPlace op opcode ∈ formats ∧ base = 4 * opcode.toNat := by
  simp only [Opcode.pairBases, List.mem_cons, List.not_mem_nil, or_false] at hbase
  rcases hbase with rfl | rfl | rfl | rfl
  · obtain ⟨op, hreads, hf, -, -⟩ := @binary_mem 0 (by decide)
    exact ⟨op, _, hreads, hf, rfl⟩
  · obtain ⟨op, hreads, hf, -, -⟩ := @binary_mem 5 (by decide)
    exact ⟨op, _, hreads, hf, rfl⟩
  · obtain ⟨op, hreads, hf, -, -⟩ := @binary_mem 7 (by decide)
    exact ⟨op, _, hreads, hf, rfl⟩
  · exact ⟨.mov, 0b100010, rfl, mov_registerPlace_mem, rfl⟩

end Table

/-! ## The pairs, one by one -/

section Pairs

open Opcode Table

variable {bytes bytes' : Nat → UInt8}

theorem sameMeaning_extendedWord {md : Fin 4} {g q : Fin 8} {disp : List UInt8} {i : UInt8}
    (hg : g.val ∈ digits) (hdisp : disp.length = dispCount md q)
    (hs : Starts bytes ([0x83, modRm md g q] ++ (disp ++ [i])))
    (ht : Starts bytes' ([0x81, modRm md g q] ++ (disp ++ [i, signByte i]))) :
    SameMeaning bytes bytes' (2 + dispCount md q + 1) (2 + dispCount md q + 2) := by
  obtain ⟨op, hreads, -, hf, -⟩ := binary_mem hg
  have hfirst : (bytes 0).toNat = 0x80 + 2 * true.toNat + true.toNat :=
    congrArg UInt8.toNat (hs 0 _ rfl)
  have hfirst' : (bytes' 0).toNat = 0x80 + 2 * false.toNat + true.toNat :=
    congrArg UInt8.toNat (ht 0 _ rfl)
  have hplace := Starts.place_eq rfl rfl hs ht hdisp true
  have hdata : bytes (2 + dispCount md q) = i := hs.behind_disp rfl hdisp 0 _ rfl
  have hlow : bytes' (2 + dispCount md q) = i := ht.behind_disp rfl hdisp 0 _ rfl
  have hhigh : bytes' (2 + dispCount md q + 1) = signByte i := ht.behind_disp rfl hdisp 1 _ rfl
  refine ⟨op, true, _, _, _, hreads, spells_placeImmediate hf hfirst (hs 1 _ rfl),
    hplace ▸ spells_placeImmediate hf hfirst' (ht 1 _ rfl), ?_⟩
  show (Operand.immediate (BitReader.extend true (bytes _))).masked 2 =
    (Operand.immediate (Image.wordOf (bytes' _) (bytes' _)).toUInt32).masked 2
  rw [hdata, hlow, hhigh, masked_extend_word]

theorem sameMeaning_extendedByte {md : Fin 4} {g q : Fin 8} {disp : List UInt8} {i : UInt8}
    (hg : g.val ∈ digits) (hdisp : disp.length = dispCount md q)
    (hs : Starts bytes ([0x82, modRm md g q] ++ (disp ++ [i])))
    (ht : Starts bytes' ([0x80, modRm md g q] ++ (disp ++ [i]))) :
    SameMeaning bytes bytes' (2 + dispCount md q + 1) (2 + dispCount md q + 1) := by
  obtain ⟨op, hreads, -, hf, -⟩ := binary_mem hg
  have hfirst : (bytes 0).toNat = 0x80 + 2 * true.toNat + false.toNat :=
    congrArg UInt8.toNat (hs 0 _ rfl)
  have hfirst' : (bytes' 0).toNat = 0x80 + 2 * false.toNat + false.toNat :=
    congrArg UInt8.toNat (ht 0 _ rfl)
  have hplace := Starts.place_eq rfl rfl hs ht hdisp false
  have hdata : bytes (2 + dispCount md q) = i := hs.behind_disp rfl hdisp 0 _ rfl
  have hdata' : bytes' (2 + dispCount md q) = i := ht.behind_disp rfl hdisp 0 _ rfl
  refine ⟨op, false, _, _, _, hreads, spells_placeImmediate hf hfirst (hs 1 _ rfl),
    hplace ▸ spells_placeImmediate hf hfirst' (ht 1 _ rfl), ?_⟩
  show (Operand.immediate (BitReader.extend true (bytes _))).masked 1 =
    (Operand.immediate (BitReader.extend false (bytes' _))).masked 1
  rw [hdata, hdata', masked_extend_byte]

theorem sameMeaning_dispRegister {base : Nat} {d w : Bool} {r q : Fin 8} {disp : UInt8}
    (hbase : base ∈ pairBases) (hs : Starts bytes [flagged base d w, modRm 1 r q, disp])
    (ht : Starts bytes' [flagged base d w, modRm 2 r q, disp, signByte disp]) :
    SameMeaning bytes bytes' 3 4 := by
  obtain ⟨op, opcode, hreads, hf, rfl⟩ := registerPlace_mem hbase
  have hfirst := toNat_flagged (lt_of_mem_pairBases hbase) d w
  have hplace := place_one_eq_two (hs 2 _ rfl) (ht 2 _ rfl) (ht 3 _ rfl) q w
  refine ⟨op, w, _, _, _, hreads,
    spells_registerPlace hf (hs 0 _ rfl ▸ hfirst) (hs 1 _ rfl), ?_, rfl⟩
  rw [hplace]
  exact spells_registerPlace hf (ht 0 _ rfl ▸ hfirst) (ht 1 _ rfl)

theorem sameMeaning_dispImmediate {s w : Bool} {g q : Fin 8} {disp : UInt8} {data : List UInt8}
    (hg : g.val ∈ digits) (hdata : data.length = if !s && w then 2 else 1)
    (hs : Starts bytes ([flagged 0x80 s w, modRm 1 g q, disp] ++ data))
    (ht : Starts bytes' ([flagged 0x80 s w, modRm 2 g q, disp, signByte disp] ++ data)) :
    SameMeaning bytes bytes' (3 + data.length) (4 + data.length) := by
  obtain ⟨op, hreads, -, hf, -⟩ := binary_mem hg
  have hfirst := toNat_flagged (show 0x80 < 253 by decide) s w
  have hplace := place_one_eq_two (hs 2 _ rfl) (ht 2 _ rfl) (ht 3 _ rfl) q w
  have hnumber := Starts.numberAt_eq hs.append_right ht.append_right hdata s
  rw [hdata]
  refine ⟨op, w, _, _, _, hreads, spells_placeImmediate hf (hs 0 _ rfl ▸ hfirst) (hs 1 _ rfl), ?_,
    congrArg (fun n => (Operand.immediate n).masked _) hnumber⟩
  rw [hplace]
  exact spells_placeImmediate hf (ht 0 _ rfl ▸ hfirst) (ht 1 _ rfl)

theorem sameMeaning_dispMove {w : Bool} {q : Fin 8} {disp : UInt8} {data : List UInt8}
    (hdata : data.length = if w then 2 else 1)
    (hs : Starts bytes ([flagged 0xC6 false w, modRm 1 0 q, disp] ++ data))
    (ht : Starts bytes' ([flagged 0xC6 false w, modRm 2 0 q, disp, signByte disp] ++ data)) :
    SameMeaning bytes bytes' (3 + data.length) (4 + data.length) := by
  have hfirst := toNat_flagged (show 0xC6 < 253 by decide) false w
  have hplace := place_one_eq_two (hs 2 _ rfl) (ht 2 _ rfl) (ht 3 _ rfl) q w
  have hnumber := Starts.numberAt_eq hs.append_right ht.append_right hdata false
  rw [hdata]
  refine ⟨.mov, w, _, _, _, rfl, spells_movPlaceImmediate (hs 0 _ rfl ▸ hfirst) (hs 1 _ rfl), ?_,
    congrArg (fun n => (Operand.immediate n).masked _) hnumber⟩
  rw [hplace]
  exact spells_movPlaceImmediate (ht 0 _ rfl ▸ hfirst) (ht 1 _ rfl)

theorem sameMeaning_dispSegment {d : Bool} {r q : Fin 8} {disp : UInt8} (hr : r.val < 4)
    (hs : Starts bytes [flagged 0x8C d false, modRm 1 r q, disp])
    (ht : Starts bytes' [flagged 0x8C d false, modRm 2 r q, disp, signByte disp]) :
    SameMeaning bytes bytes' 3 4 := by
  have hfirst := toNat_flagged (show 0x8C < 253 by decide) d false
  have hplace := place_one_eq_two (hs 2 _ rfl) (ht 2 _ rfl) (ht 3 _ rfl) q true
  refine ⟨.mov, true, _, _, _, rfl,
    spells_movSegment (hs 0 _ rfl ▸ hfirst) hr (hs 1 _ rfl), ?_, rfl⟩
  rw [hplace]
  exact spells_movSegment (ht 0 _ rfl ▸ hfirst) hr (ht 1 _ rfl)

theorem sameMeaning_exchanged {base : Nat} {w : Bool} {x y : Fin 8} (hbase : base ∈ pairBases)
    (hs : Starts bytes [flagged base false w, modRm 3 x y])
    (ht : Starts bytes' [flagged base true w, modRm 3 y x]) : SameMeaning bytes bytes' 2 2 := by
  obtain ⟨op, opcode, hreads, hf, rfl⟩ := registerPlace_mem hbase
  have hfirst := toNat_flagged (lt_of_mem_pairBases hbase) false w
  have hfirst' := toNat_flagged (lt_of_mem_pairBases hbase) true w
  exact ⟨op, w, register y w, register x w, register x w, hreads,
    spells_registerPlace hf (hs 0 _ rfl ▸ hfirst) (hs 1 _ rfl),
    spells_registerPlace hf (ht 0 _ rfl ▸ hfirst') (ht 1 _ rfl), rfl⟩

theorem sameMeaning_accumulator {g : Fin 8} {w : Bool} {data : List UInt8} (hg : g.val ∈ digits)
    (hdata : data.length = if w then 2 else 1)
    (hs : Starts bytes ([flagged (8 * g.val + 4) false w] ++ data))
    (ht : Starts bytes' ([flagged 0x80 false w, modRm 3 g 0] ++ data)) :
    SameMeaning bytes bytes' (1 + data.length) (2 + data.length) := by
  obtain ⟨op, hreads, -, hf, hf'⟩ := binary_mem hg
  have hopcode : (UInt32.ofNat (4 * g.val + 2)).toNat = 4 * g.val + 2 :=
    UInt32.toNat_ofNat_of_lt' (show _ < 2 ^ 32 by omega)
  have hfirst : (bytes 0).toNat = 2 * (UInt32.ofNat (4 * g.val + 2)).toNat + w.toNat := by
    rw [hs 0 _ rfl, toNat_flagged (by omega), hopcode, Bool.toNat_false]
    omega
  have hfirst' := toNat_flagged (show 0x80 < 253 by decide) false w
  have hnumber := Starts.numberAt_eq hs.append_right ht.append_right hdata false
  rw [hdata]
  exact ⟨op, w, register 0 w, _, _, hreads, spells_accumulatorImmediate hf' hfirst,
    spells_placeImmediate hf (ht 0 _ rfl ▸ hfirst') (ht 1 _ rfl),
    congrArg (fun n => (Operand.immediate n).masked _) hnumber⟩

theorem sameMeaning_absolute {toAccumulator w : Bool} {low high : UInt8}
    (hs : Starts bytes [flagged 0xA0 (!toAccumulator) w, low, high])
    (ht : Starts bytes' [flagged 0x88 toAccumulator w, modRm 0 0 6, low, high]) :
    SameMeaning bytes bytes' 3 4 := by
  have hfirst := toNat_flagged (show 0xA0 < 253 by decide) (!toAccumulator) w
  have hfirst' := toNat_flagged (show 0x88 < 253 by decide) toAccumulator w
  have hplace : Operand.memory ⟨.ds, .direct, (Image.wordOf (bytes 1) (bytes 2)).toInt16⟩ =
      place bytes' 0 6 w := by
    rw [hs 1 _ rfl, hs 2 _ rfl, ← ht 2 _ rfl, ← ht 3 _ rfl]
    rfl
  have hspells := spells_movAbsolute (hs 0 _ rfl ▸ hfirst)
  rw [hplace] at hspells
  exact ⟨.mov, w, _, _, _, rfl, hspells,
    spells_registerPlace mov_registerPlace_mem (ht 0 _ rfl ▸ hfirst') (ht 1 _ rfl), rfl⟩

theorem sameMeaning_register {r : Fin 8} {w : Bool} {data : List UInt8}
    (hdata : data.length = if w then 2 else 1)
    (hs : Starts bytes ([UInt8.ofNat (0xB0 + 8 * w.toNat + r.val)] ++ data))
    (ht : Starts bytes' ([flagged 0xC6 false w, modRm 3 0 r] ++ data)) :
    SameMeaning bytes bytes' (1 + data.length) (2 + data.length) := by
  have hfirst : (bytes 0).toNat = 0xB0 + 8 * w.toNat + r.val := by
    have hw := w.toNat_le
    rw [hs 0 _ rfl]
    exact UInt8.toNat_ofNat_of_lt' (show _ < 256 by omega)
  have hfirst' := toNat_flagged (show 0xC6 < 253 by decide) false w
  have hnumber := Starts.numberAt_eq hs.append_right ht.append_right hdata false
  rw [hdata]
  exact ⟨.mov, w, register r w, _, _, rfl, spells_movRegisterImmediate hfirst,
    spells_movPlaceImmediate (ht 0 _ rfl ▸ hfirst') (ht 1 _ rfl),
    congrArg (fun n => (Operand.immediate n).masked _) hnumber⟩

/-- The strings of a pair have the same meaning wherever they stand. -/
theorem Opcode.Alternative.sameMeaning {s t : List UInt8} (h : Alternative s t)
    (hs : Starts bytes s) (ht : Starts bytes' t) :
    SameMeaning bytes bytes' s.length t.length := by
  cases h with
  | extendedWord md g q disp i hg hdisp =>
    have hsame := sameMeaning_extendedWord hg hdisp hs ht
    rw [← hdisp, Nat.add_assoc, Nat.add_assoc] at hsame
    simpa only [List.length_cons, List.length_append, List.length_nil, Nat.add_comm 2] using hsame
  | extendedByte md g q disp i hg hdisp =>
    have hsame := sameMeaning_extendedByte hg hdisp hs ht
    rw [← hdisp, Nat.add_assoc] at hsame
    simpa only [List.length_cons, List.length_append, List.length_nil, Nat.add_comm 2] using hsame
  | dispRegister base d w r q disp hbase => exact sameMeaning_dispRegister hbase hs ht
  | dispImmediate s w g q disp data hg hdata =>
    have hsame := sameMeaning_dispImmediate hg hdata hs ht
    rwa [Nat.add_comm 3, Nat.add_comm 4] at hsame
  | dispMove w q disp data hdata =>
    have hsame := sameMeaning_dispMove hdata hs ht
    rwa [Nat.add_comm 3, Nat.add_comm 4] at hsame
  | dispSegment d r q disp hr => exact sameMeaning_dispSegment hr hs ht
  | exchanged base w x y hbase => exact sameMeaning_exchanged hbase hs ht
  | accumulator g w data hg hdata =>
    have hsame := sameMeaning_accumulator hg hdata hs ht
    rwa [Nat.add_comm 1, Nat.add_comm 2] at hsame
  | absolute toAccumulator w low high => exact sameMeaning_absolute hs ht
  | register r w data hdata =>
    have hsame := sameMeaning_register hdata hs ht
    rwa [Nat.add_comm 1, Nat.add_comm 2] at hsame

end Pairs

namespace Machine

/-- **Alternative encodings execute identically.**  Let the strings of a pair stand anywhere in
memory, behind the same prefixes.  Both are decoded to their last byte, as the same one of the
operations `mov`, `add`, `sub` and `cmp`, and every machine does the same with the two
instructions. -/
theorem execute_alternative {s t : List UInt8} (h : Opcode.Alternative s t)
    (calls : List (Image × Cursor)) {image image' : Image} {cursor cursor' : Cursor}
    (hs : Starts (image.along cursor) s) (ht : Starts (image'.along cursor') t) :
    ∃ x y, decodeOne (Pending.clear.through calls) image cursor = .ok x ∧
      decodeOne (Pending.clear.through calls) image' cursor' = .ok y ∧
      x.instruction.size.toNat = s.length ∧ y.instruction.size.toNat = t.length ∧
      x.instruction.operation = y.instruction.operation ∧
      x.instruction.operation ∈ [.mov, .add, .sub, .cmp] ∧
      ∀ (m : Machine) (ip : UInt16), m.execute x.instruction ip = m.execute y.instruction ip := by
  obtain ⟨x, y, hx, hy, hsize, hsize', hop, hreads, hexecute⟩ :=
    (h.sameMeaning hs ht).execute_eq calls
  exact ⟨x, y, hx, hy, hsize, hsize', hop, Operation.mem_of_readsTwo hreads, hexecute⟩

/-- `cmp word [bp - 4], -1` with a byte of data and with two, at the end of a segment. -/
theorem execute_cmp_alternative :
    let image := Image.zero.layOut ⟨0x1000, 0xFFFE⟩ [0x83, 0x7E, 0xFC, 0xFF]
    let image' := Image.zero.layOut ⟨0x1000, 0xFFFE⟩ [0x81, 0x7E, 0xFC, 0xFF, 0xFF]
    ∃ x y, decodeOne .clear image ⟨0x1000, 0xFFFE⟩ = .ok x ∧
      decodeOne .clear image' ⟨0x1000, 0xFFFE⟩ = .ok y ∧
      x.instruction.size.toNat = 4 ∧ y.instruction.size.toNat = 5 ∧
      x.instruction.operation = y.instruction.operation ∧
      ∀ (m : Machine) (ip : UInt16), m.execute x.instruction ip = m.execute y.instruction ip := by
  intro image image'
  obtain ⟨x, y, hx, hy, hsize, hsize', hop, -, hexecute⟩ :=
    execute_alternative (.extendedWord 1 7 6 [0xFC] 0xFF (by decide) rfl) []
      (Starts.layOut .zero ⟨0x1000, 0xFFFE⟩ (by decide))
      (Starts.layOut .zero ⟨0x1000, 0xFFFE⟩ (by decide))
  exact ⟨x, y, hx, hy, hsize, hsize', hop, hexecute⟩

end Machine
end I8086
