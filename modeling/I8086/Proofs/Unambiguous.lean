import I8086.Decode.Basic
import I8086.Proofs.Attempt

/-!
# No two encodings overlap, but for one byte

The formats are tried in order and the first one that gives an instruction wins, so the order could
decide what a stream means.  It does not, except in one place: the byte `90` is `nop`, and would be
`xchg ax, ax` if `nop` did not stand first.

* `Format.mask` and `Format.pattern` are the bits of a byte that the literals of a format fix, and
  the values they fix them to.  Two formats that fix a common bit to different values describe no
  common stream (`not_describes_of_clashes`).
* `Table.pairwise_clashes` checks this for every pair of the table.
* `firstMatch_eq` takes the search apart into the first success and whether something was cut
  off; neither depends on the order once successes are unique, which is
  `firstMatch_eq_of_perm`.
-/

set_option autoImplicit false

namespace I8086

/-! ## The bits that literals fix -/

theorem and_shiftLeft_eq_iff {b s w v : Nat} :
    b &&& ((2 ^ w - 1) <<< s) = v <<< s ↔ b / 2 ^ s % 2 ^ w = v := by
  have hmask : b &&& ((2 ^ w - 1) <<< s) = (b / 2 ^ s % 2 ^ w) <<< s := by
    refine Nat.eq_of_testBit_eq fun j => ?_
    rw [Nat.testBit_and, Nat.testBit_shiftLeft, Nat.testBit_shiftLeft, Nat.testBit_two_pow_sub_one,
      Nat.testBit_mod_two_pow, Nat.testBit_div_two_pow]
    by_cases hj : s ≤ j
    · rw [Nat.sub_add_cancel hj]
      simp only [hj, decide_true, Bool.true_and]
      exact Bool.and_comm _ _
    · simp [hj]
  rw [hmask]
  refine ⟨fun h => ?_, fun h => h ▸ rfl⟩
  have h' := congrArg (· >>> s) h
  simpa only [Nat.shiftLeft_shiftRight] using h'

namespace Placed

/-- The bits of its byte that a literal fixes. -/
def mask (x : Placed) : Nat :=
  (2 ^ x.field.bits.toNat - 1) <<< (8 - x.place % 8 - x.field.bits.toNat)

/-- The values of these bits. -/
def pattern (x : Placed) : Nat :=
  x.field.value.toNat <<< (8 - x.place % 8 - x.field.bits.toNat)

/-- A literal that takes bits of byte `k`. -/
def fixes (k : Nat) (x : Placed) : Bool :=
  x.isLiteral && x.field.bits != 0 && x.place / 8 == k

theorem agrees_iff_and_mask {bytes : Nat → UInt8} {x : Placed} {k : Nat} (hfits : x.fits = true)
    (hfix : x.fixes k = true) :
    x.agrees bytes = true ↔ (bytes k).toNat &&& x.mask = x.pattern := by
  simp only [fixes, Bool.and_eq_true, bne_iff_ne, beq_iff_eq] at hfix
  obtain ⟨⟨hlit, h0⟩, rfl⟩ := hfix
  have hwidth := (fits_iff.1 hfits).2
  have hlt : bitsAt bytes x.place x.field.bits.toNat < 2 ^ 32 :=
    Nat.lt_of_lt_of_le (bitsAt_lt _ _ _) (Nat.pow_le_pow_right (by decide) (by omega))
  simp only [agrees, hlit, value, if_neg h0, Bool.not_true, Bool.false_or, beq_iff_eq]
  rw [← UInt32.toNat_inj, UInt32.toNat_ofNat_of_lt' hlt]
  exact and_shiftLeft_eq_iff.symm

end Placed

theorem and_foldr_or {b : Nat} {m p : Placed → Nat} {xs : List Placed}
    (h : ∀ x ∈ xs, b &&& m x = p x) :
    b &&& xs.foldr (fun x acc => m x ||| acc) 0 = xs.foldr (fun x acc => p x ||| acc) 0 := by
  induction xs with
  | nil => exact Nat.and_zero b
  | cons x rest ih =>
    rw [List.foldr_cons, List.foldr_cons, Nat.and_or_distrib_left, h x (List.mem_cons_self ..),
      ih fun y hy => h y (List.mem_cons_of_mem _ hy)]

namespace Format

/-- The bits of byte `k` that the literals of a format fix. -/
def mask (format : Format) (k : Nat) : Nat :=
  (format.places.filter (Placed.fixes k)).foldr (fun x acc => x.mask ||| acc) 0

/-- The values of these bits. -/
def pattern (format : Format) (k : Nat) : Nat :=
  (format.places.filter (Placed.fixes k)).foldr (fun x acc => x.pattern ||| acc) 0

theorem WellFormed.and_mask {format : Format} (hw : format.WellFormed) {bytes : Nat → UInt8}
    (h : format.Describes bytes) (k : Nat) :
    (bytes k).toNat &&& format.mask k = format.pattern k := by
  refine and_foldr_or fun x hx => ?_
  obtain ⟨hmem, hfix⟩ := List.mem_filter.1 hx
  exact (Placed.agrees_iff_and_mask (hw.fits x hmem) hfix).1 (h x hmem)

/-- Some bit of the first two bytes is fixed to different values. -/
def clashes (f g : Format) : Bool :=
  [0, 1].any fun k => f.pattern k &&& g.mask k != g.pattern k &&& f.mask k

theorem not_describes_of_clashes {f g : Format} (hf : f.WellFormed) (hg : g.WellFormed)
    (h : f.clashes g = true) {bytes : Nat → UInt8} (hd : f.Describes bytes) :
    ¬ g.Describes bytes := by
  intro he
  obtain ⟨k, -, hk⟩ := List.any_eq_true.1 h
  refine bne_iff_ne.1 hk ?_
  rw [← hf.and_mask hd k, ← hg.and_mask he k, Nat.and_assoc, Nat.and_assoc,
    Nat.and_comm (f.mask k)]

theorem not_clashes_self (f : Format) : f.clashes f = false := by
  simp [clashes]

end Format

/-! ## The pairs of the table -/

namespace Table

/-- The encoding of `nop`. -/
def nop : Format := fixed .nop 0b10010000

/-- The exchange of a register with the accumulator. -/
def xchgAccumulator : Format :=
  ⟨.xchg, [lit 5 0b10010, reg, fixedMod 0b11, fixedW 1, fixedRm 0]⟩

theorem wellFormed : ∀ f ∈ formats, f.WellFormed := by
  decide +kernel

theorem pairwise_clashes :
    formats.Pairwise fun f g => f.clashes g = true ∨ (f = nop ∧ g = xchgAccumulator) := by
  decide +kernel

theorem nodup : formats.Nodup := by
  refine pairwise_clashes.imp ?_
  rintro f g (h | ⟨hf, hg⟩) rfl
  · exact Bool.false_ne_true (f.not_clashes_self ▸ h)
  · exact absurd (hf.symm.trans hg) (by decide)

/-- Two different entries describe a common stream only if they are `nop` and `xchg`, in this
order. -/
theorem eq_of_describes {i j : Fin formats.length} (hij : i < j) {bytes : Nat → UInt8}
    (hi : (formats.get i).Describes bytes) (hj : (formats.get j).Describes bytes) :
    formats.get i = nop ∧ formats.get j = xchgAccumulator := by
  rcases List.pairwise_iff_getElem.1 pairwise_clashes i j i.isLt j.isLt hij with h | h
  · exact absurd hj (Format.not_describes_of_clashes (wellFormed _ (List.get_mem ..))
      (wellFormed _ (List.get_mem ..)) h hi)
  · exact h

theorem byte_of_describes_nop {bytes : Nat → UInt8} (h : nop.Describes bytes) :
    bytes 0 = 0x90 := by
  have hw : nop.WellFormed := by decide
  have hb := hw.and_mask h 0
  rw [show nop.mask 0 = 2 ^ 8 - 1 by decide, show nop.pattern 0 = 0x90 by decide,
    Nat.and_two_pow_sub_one_eq_mod, Nat.mod_eq_of_lt (bytes 0).toNat_lt] at hb
  exact UInt8.toNat_inj.1 hb

end Table

/-! ## The first success in a list of formats -/

/-- The attempt runs out of bytes. -/
def Format.isCut (format : Format) (image : Image) (cursor : Cursor) (limit : UInt32) : Bool :=
  match format.attempt image cursor limit with
  | .error .truncated => true
  | _ => false

theorem firstMatch_eq (image : Image) (cursor : Cursor) (limit : UInt32) (cut : Bool)
    (formats : List Format) :
    firstMatch image cursor limit cut formats =
      match formats.findSome? fun f => (f.attempt image cursor limit).toOption with
      | some i => .ok i
      | none => .error (if cut || formats.any fun f => f.isCut image cursor limit then .truncated
          else .unrecognized) := by
  induction formats generalizing cut with
  | nil => simp [firstMatch]
  | cons f rest ih =>
    rw [firstMatch, List.findSome?_cons, List.any_cons, Format.isCut]
    rcases f.attempt image cursor limit with (_ | _ | _) | i
    · exact ih cut
    · refine (ih true).trans ?_
      rw [Bool.true_or, Bool.or_true]
      rfl
    · exact ih cut
    · rfl

theorem mem_of_pair_sublist {α : Type} {p q : α} {l₁ l₂ : List α}
    (hn : (l₁ ++ q :: l₂).Nodup) (hs : [p, q].Sublist (l₁ ++ q :: l₂)) : p ∈ l₁ := by
  have hq : q ∉ l₂ := (List.nodup_cons.1 (List.nodup_append.1 hn).2.1).1
  obtain ⟨r₁, r₂, he, h₁, h₂⟩ := List.sublist_append_iff.1 hs
  match r₁ with
  | [] =>
    rw [List.nil_append] at he
    subst he
    -- `q` would have to stand once more behind its only place
    cases h₂ with
    | cons _ h => exact absurd (h.subset (by simp)) hq
    | cons_cons _ h => exact absurd (h.subset (by simp)) hq
  | r :: rest =>
    rw [List.cons_append, List.cons.injEq] at he
    exact h₁.subset (he.1 ▸ List.mem_cons_self ..)

/-- If only `p` and `q` can both succeed and `p` stands before `q`, then what a search finds is a
question of membership: an entry that succeeds wins, unless it is `q` and `p` succeeds too. -/
theorem findSome?_eq_some_iff_of_pair {α β : Type} {a : α → Option β} {p q : α} {l : List α}
    (hn : l.Nodup) (hs : [p, q].Sublist l)
    (hu : ∀ x ∈ l, ∀ y ∈ l, a x ≠ none → a y ≠ none → x = y ∨ (x = p ∧ y = q) ∨ (x = q ∧ y = p))
    (b : β) : l.findSome? a = some b ↔ ∃ x ∈ l, a x = some b ∧ (x = q → a p = none) := by
  have hfound : ∀ c, l.findSome? a = some c → ∃ x ∈ l, a x = some c ∧ (x = q → a p = none) := by
    intro c hc
    obtain ⟨l₁, x, l₂, rfl, hx, hbefore⟩ := List.findSome?_eq_some_iff.1 hc
    refine ⟨x, by simp, hx, ?_⟩
    rintro rfl
    exact hbefore p (mem_of_pair_sublist hn hs)
  refine ⟨hfound b, ?_⟩
  rintro ⟨x, hx, hb, hfirst⟩
  cases hc : l.findSome? a with
  | none => rw [List.findSome?_eq_none_iff.1 hc x hx] at hb; cases hb
  | some c =>
    obtain ⟨y, hy, hyc, hyfirst⟩ := hfound c hc
    rcases hu x hx y hy (by simp [hb]) (by simp [hyc]) with rfl | ⟨rfl, rfl⟩ | ⟨rfl, rfl⟩
    · rw [← hyc, hb]
    · rw [hyfirst rfl] at hb; cases hb
    · rw [hfirst rfl] at hyc; cases hyc

theorem toOption_eq_some_iff {ε α : Type} {x : Except ε α} {b : α} :
    x.toOption = some b ↔ x = .ok b := by
  cases x <;> simp [Except.toOption]

section Order

variable {image : Image} {cursor : Cursor} {limit : UInt32}

theorem Table.pair_of_attempts {i j : Fin formats.length} (hij : i ≠ j) {x y : Instruction}
    (hx : (formats.get i).attempt image cursor limit = .ok x)
    (hy : (formats.get j).attempt image cursor limit = .ok y) :
    (formats.get i = nop ∧ formats.get j = xchgAccumulator) ∨
      (formats.get i = xchgAccumulator ∧ formats.get j = nop) := by
  have hi := (wellFormed _ (List.get_mem formats i)).describes_of_attempt hx
  have hj := (wellFormed _ (List.get_mem formats j)).describes_of_attempt hy
  rcases Nat.lt_or_gt_of_ne (fun e => hij (Fin.ext e)) with h | h
  · exact .inl (eq_of_describes h hi hj)
  · exact .inr (eq_of_describes h hj hi).symm

/-- What the search finds in an order of the table that keeps `nop` before `xchg`. -/
theorem findSome?_attempt_iff {l : List Format} (hp : l.Perm Table.formats)
    (hs : [Table.nop, Table.xchgAccumulator].Sublist l) (x : Instruction) :
    (l.findSome? fun f => (f.attempt image cursor limit).toOption) = some x ↔
      ∃ f ∈ Table.formats, f.attempt image cursor limit = .ok x ∧
        (f = Table.xchgAccumulator → (Table.nop.attempt image cursor limit).toOption = none) := by
  rw [findSome?_eq_some_iff_of_pair (hp.nodup_iff.2 Table.nodup) hs]
  · simp only [hp.mem_iff, toOption_eq_some_iff]
  · intro f hf g hg hx hy
    obtain ⟨i, rfl⟩ := List.get_of_mem (hp.mem_iff.1 hf)
    obtain ⟨j, rfl⟩ := List.get_of_mem (hp.mem_iff.1 hg)
    obtain ⟨x, hx⟩ := Option.ne_none_iff_exists'.1 hx
    obtain ⟨y, hy⟩ := Option.ne_none_iff_exists'.1 hy
    by_cases hij : i = j
    · exact .inl (hij ▸ rfl)
    · exact .inr (Table.pair_of_attempts hij (toOption_eq_some_iff.1 hx)
        (toOption_eq_some_iff.1 hy))

theorem Table.nop_sublist_formats : [nop, xchgAccumulator].Sublist formats := by
  decide

/-- An entry that succeeds is the one that is found, unless `nop` stands in front of it. -/
theorem firstMatch_of_attempt {f : Format} (hf : f ∈ Table.formats) {x : Instruction}
    (hx : f.attempt image cursor limit = .ok x)
    (hfirst : f = Table.xchgAccumulator → (Table.nop.attempt image cursor limit).toOption = none) :
    firstMatch image cursor limit false Table.formats = .ok x := by
  have hfind := (findSome?_attempt_iff (.refl _) Table.nop_sublist_formats x).2 ⟨f, hf, hx, hfirst⟩
  rw [firstMatch_eq, hfind]

theorem firstMatch_eq_of_perm {l : List Format} (hp : l.Perm Table.formats)
    (hs : [Table.nop, Table.xchgAccumulator].Sublist l) :
    firstMatch image cursor limit false l = firstMatch image cursor limit false Table.formats := by
  have hfind : (l.findSome? fun f => (f.attempt image cursor limit).toOption) =
      Table.formats.findSome? fun f => (f.attempt image cursor limit).toOption := by
    refine Option.ext fun x => ?_
    rw [findSome?_attempt_iff hp hs, findSome?_attempt_iff (.refl _) Table.nop_sublist_formats]
  rw [firstMatch_eq, firstMatch_eq, hfind, hp.any_eq]

/-- **The table is unambiguous up to `nop`**, and so its order does not matter otherwise: every
order that keeps `nop` before `xchg` decodes every stream, within every limit and after all
prefixes, in the same way. -/
theorem decodeWith_order_independent :
    (∀ (image : Image) (cursor : Cursor) (limit : UInt32) (i j : Fin Table.formats.length)
      (x y : Instruction), i ≠ j → (Table.formats.get i).attempt image cursor limit = .ok x →
      (Table.formats.get j).attempt image cursor limit = .ok y →
      image.get cursor.address = 0x90 ∧
        ((Table.formats.get i = Table.nop ∧ Table.formats.get j = Table.xchgAccumulator) ∨
          (Table.formats.get i = Table.xchgAccumulator ∧ Table.formats.get j = Table.nop))) ∧
    ∀ l : List Format, l.Perm Table.formats → [Table.nop, Table.xchgAccumulator].Sublist l →
      ∀ (pending : Pending) (image : Image) (cursor : Cursor) (limit : UInt32),
        decodeWith l pending image cursor limit = decodeWithin pending image cursor limit := by
  refine ⟨fun image cursor limit i j x y hij hx hy => ?_, fun l hp hs pending image cursor limit => ?_⟩
  · have hpair := Table.pair_of_attempts hij hx hy
    have hnop : Table.nop.Describes (image.along cursor) := by
      rcases hpair with ⟨hi, -⟩ | ⟨-, hj⟩
      · exact hi ▸ (Table.wellFormed _ (List.get_mem _ i)).describes_of_attempt hx
      · exact hj ▸ (Table.wellFormed _ (List.get_mem _ j)).describes_of_attempt hy
    exact ⟨Table.byte_of_describes_nop hnop, hpair⟩
  · rw [decodeWithin, decodeWith, decodeWith, firstMatch_eq_of_perm hp hs]

/-- Two entries succeed for `nop`.  The order that tries the first entry last is one of those that
keep `nop` before `xchg`, and it decodes `mov ax, bx`, which is for the first entry. -/
theorem decodeWith_first_entry_last :
    let image := Image.zero.setRange 0 [0x90, 0x89, 0xD8]
    let last := Table.formats.tail ++ Table.formats.take 1
    (∃ (i j : Fin Table.formats.length) (x y : Instruction), i ≠ j ∧
      (Table.formats.get i).attempt image ⟨0, 0⟩ 3 = .ok x ∧
      (Table.formats.get j).attempt image ⟨0, 0⟩ 3 = .ok y ∧
      image.get (Cursor.address ⟨0, 0⟩) = 0x90 ∧
        ((Table.formats.get i = Table.nop ∧ Table.formats.get j = Table.xchgAccumulator) ∨
          (Table.formats.get i = Table.xchgAccumulator ∧ Table.formats.get j = Table.nop))) ∧
    last ≠ Table.formats ∧
      decodeWith last .clear image ⟨0, 1⟩ 2 = decodeWithin .clear image ⟨0, 1⟩ 2 ∧
      (decodeWith last .clear image ⟨0, 1⟩ 2).toOption.map (·.instruction) =
        ((Table.formats.take 1).findSome? fun f => (f.attempt image ⟨0, 1⟩ 2).toOption) ∧
      (decodeWith last .clear image ⟨0, 1⟩ 2).toOption.map (·.instruction.operation) =
        some .mov := by
  intro image last
  have hattempts : (Table.nop.attempt image ⟨0, 0⟩ 3).toOption.isSome = true ∧
      (Table.xchgAccumulator.attempt image ⟨0, 0⟩ 3).toOption.isSome = true := by
    decide +kernel
  obtain ⟨x, hx⟩ := Option.isSome_iff_exists.1 hattempts.1
  obtain ⟨y, hy⟩ := Option.isSome_iff_exists.1 hattempts.2
  obtain ⟨i, hi⟩ := List.get_of_mem (Table.nop_sublist_formats.subset List.mem_cons_self)
  obtain ⟨j, hj⟩ := List.get_of_mem
    (Table.nop_sublist_formats.subset (List.mem_cons_of_mem _ List.mem_cons_self))
  have hij : i ≠ j := by
    rintro rfl
    exact absurd (hi.symm.trans hj) (by decide)
  rw [toOption_eq_some_iff] at hx hy
  rw [← hi] at hx
  rw [← hj] at hy
  have hsame := decodeWith_order_independent.2 last List.perm_append_comm (by decide +kernel)
    .clear image ⟨0, 1⟩ 2
  refine ⟨⟨i, j, x, y, hij, hx, hy, ?_⟩, by decide +kernel, hsame, ?_⟩
  · exact decodeWith_order_independent.1 image ⟨0, 0⟩ 3 i j x y hij hx hy
  · rw [hsame]
    decide +kernel

end Order
end I8086
