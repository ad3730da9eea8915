import I8086.Proofs.Coverage

/-!
# Decoding a region in parts

A region can be decoded in parts: up to some boundary and then from there on, or a few instructions
one by one and then all that is left.  A decoder keeps three things that could give the boundary
away: how many bytes it may still read, how far it has come and what waits.

* `Decoder.enlarge` gives a decoder a larger region.  `Decoder.decodeAll_enlarge` says that the
  instructions which fitted into the smaller one are found again, so that only the end is different.
* `Decoder.behind` puts something in front of a region, and `Decoder.decodeAll_behind` says that
  what is in front does not matter.
* `Decoder.Settled` is the invariant that keeps prefixes from crossing a boundary: unless a prefix
  waits, nothing is known any more about those that did.
-/

set_option autoImplicit false

namespace I8086
namespace Decoder

/-! ## A larger region -/

/-- The decoder with a region of another size. -/
def enlarge (d : Decoder) (count : UInt32) : Decoder := { d with count }

section Enlarge

variable {d : Decoder} {count : UInt32}

theorem next_enlarge {d' : Decoder} {i : Instruction} (hcount : d.count ≤ count)
    (h : d.next = (.ok i, d')) :
    (d.enlarge count).next = (.ok i, d'.enlarge count) ∧ d'.count = d.count := by
  rcases d.next_cases with ⟨e, he⟩ | ⟨x, hpos, hx, hnext⟩
  · cases he.symm.trans h
  · cases hnext.symm.trans h
    have hroom : x.instruction.size ≤ count - d.pos := by
      have hsize := (size_of_decodeWithin hx).2
      have hle := UInt32.le_iff_toNat_le.1 hcount
      rw [UInt32.toNat_sub_of_le _ _ (UInt32.le_of_lt hpos)] at hsize
      rw [UInt32.le_iff_toNat_le,
        UInt32.toNat_sub_of_le _ _ (UInt32.le_trans (UInt32.le_of_lt hpos) hcount)]
      omega
    exact ⟨next_of_decodeWithin (d := d.enlarge count) (UInt32.lt_of_lt_of_le hpos hcount)
      ((decodeOne_of_decodeWithin hx).2 _ hroom), rfl⟩

/-- In a larger region decoding comes to where it ended before, and goes on from there. -/
theorem decodeAll_enlarge (hcount : d.count ≤ count) :
    (d.enlarge count).decodeAll = (d.decodeAll.2.enlarge count).decodeAll := by
  fun_induction decodeAll d with
  | case1 d i d' hd ih =>
    obtain ⟨hnext, hsame⟩ := next_enlarge hcount hd
    rw [decodeAll_of_ok hnext]
    exact ih (hsame ▸ hcount)
  | case2 d d' hd => rw [eq_of_next_error hd]
  | case3 d e d' hd => rw [eq_of_next_error hd]

end Enlarge

/-! ## Something in front -/

/-- The decoder of a region in front of which there are `n` bytes more, with the instructions
`before` in them. -/
def behind (d : Decoder) (n : UInt32) (before : Array Instruction) : Decoder :=
  { d with count := d.count + n, pos := d.pos + n, decoded := before ++ d.decoded }

section Behind

variable {d : Decoder} {start : Cursor} {count n : UInt32}

theorem next_behind (h : d.Tracks start count) (hsum : count.toNat + n.toNat < 4294967296)
    (before : Array Instruction) :
    (d.behind n before).next = (d.next.1, d.next.2.behind n before) := by
  have hend : d.count + n ≤ d.pos + n ↔ d.count ≤ d.pos := by
    have hle := UInt32.le_iff_toNat_le.1 h.pos_le
    rw [h.count_eq, UInt32.le_iff_toNat_le, UInt32.le_iff_toNat_le, UInt32.toNat_add,
      UInt32.toNat_add, Nat.mod_eq_of_lt (by omega), Nat.mod_eq_of_lt (by omega)]
    omega
  have hleft : d.count + n - (d.pos + n) = d.count - d.pos := by grind
  by_cases hcount : d.count ≤ d.pos
  · rw [next_of_count_le hcount, next_of_count_le (d := d.behind n before) (hend.2 hcount)]
    rfl
  · have hpos : d.pos < d.count := UInt32.not_le.1 hcount
    have hpos' : (d.behind n before).pos < (d.behind n before).count :=
      UInt32.not_le.1 fun hle => hcount (hend.1 hle)
    cases hx : decodeWithin d.pending d.image d.cursor (d.count - d.pos) with
    | error cause =>
      rw [next_of_decodeWithin_error hpos hx, next_of_decodeWithin_error hpos' (hleft.symm ▸ hx)]
      rfl
    | ok x =>
      rw [next_of_decodeWithin hpos hx, next_of_decodeWithin hpos' (hleft.symm ▸ hx)]
      refine Prod.ext rfl ?_
      simp only [take, behind, Array.append_push]
      rw [UInt32.add_assoc, UInt32.add_comm n, ← UInt32.add_assoc]

/-- What is in front of a region stays in front, and changes nothing else. -/
theorem decodeAll_behind (h : d.Tracks start count) (hsum : count.toNat + n.toNat < 4294967296)
    (before : Array Instruction) :
    (d.behind n before).decodeAll = (d.decodeAll.1, d.decodeAll.2.behind n before) := by
  fun_induction decodeAll d with
  | case1 d i d' hd ih =>
    have hnext := next_behind h hsum before
    have htracks := h.next
    rw [hd] at hnext htracks
    rw [decodeAll_of_ok hnext]
    exact ih htracks
  | case2 d d' hd =>
    obtain rfl := eq_of_next_error hd
    exact decodeAll_of_finished (by rw [next_behind h hsum, hd])
  | case3 d e d' hd =>
    obtain rfl := eq_of_next_error hd
    exact decodeAll_of_failed (by rw [next_behind h hsum, hd])

end Behind

/-! ## Boundaries -/

/-- Unless something waits, nothing is left of the prefixes that did. -/
def Settled (d : Decoder) : Prop := d.pending.waits = false → d.pending = .clear

theorem Settled.next {d : Decoder} (h : d.Settled) : d.next.2.Settled := by
  rcases d.next_cases with ⟨e, he⟩ | ⟨x, -, hx, hnext⟩
  · rw [he]
    exact h
  · rw [hnext]
    intro hwaits
    have hprefixed : x.instruction.isPrefix = false := (waits_of_decodeWithin hx).symm.trans hwaits
    have hpending := pending_of_decodeWithin hx
    rwa [hprefixed] at hpending

/-- A decoder that has come to the end of its region is a new one for what lies behind, apart from
what it has found. -/
theorem eq_of_decodeAll_eq_none {image : Image} {start : Cursor} {count : UInt32} {d : Decoder}
    (h : (new image start count).decodeAll = (none, d)) :
    d = ⟨image, .clear, start.advance count, count, count, d.decoded⟩ := by
  have hinv : d.Tracks start count ∧ d.Settled := by
    have := preserved_by_decodeAll (P := fun d => d.Tracks start count ∧ d.Settled)
      (fun _ hd => ⟨hd.1.next, hd.2.next⟩) (new image start count) ⟨.new .., fun _ => rfl⟩
    rwa [h] at this
  obtain ⟨htracks, hsettled⟩ := hinv
  have hend := next_decodeAll (new image start count)
  rw [h] at hend
  have hcount := count_le_of_next_finished hend
  have hpos := htracks.count_le_iff.1 hcount
  have hpending : d.pending = .clear := by
    refine hsettled (Bool.eq_false_iff.2 fun hwaits => ?_)
    rw [next_of_count_le hcount, if_pos hwaits] at hend
    cases hend
  have hcursor := htracks.cursor_eq
  have himage := (covers_decodeAll h).1
  have hsize := htracks.count_eq
  rw [hpos] at hcursor
  obtain ⟨image, pending, cursor, count, pos, decoded⟩ := d
  simp only at hpos hpending hcursor himage hsize ⊢
  rw [hpos, hpending, hcursor, himage, hsize]

/-- Asking for the next instruction first makes no difference. -/
theorem decodeAll_next (d : Decoder) : d.next.2.decodeAll = d.decodeAll := by
  rcases d.next_cases with ⟨e, he⟩ | ⟨x, -, -, hnext⟩
  · rw [he]
  · rw [decodeAll_of_ok hnext, hnext]

theorem decodeAll_after_nexts (d : Decoder) (n : Nat) :
    (d.after (List.replicate n .next)).decodeAll = d.decodeAll := by
  induction n generalizing d with
  | zero => rfl
  | succ n ih => exact (ih d.next.2).trans d.decodeAll_next

/-- **A region can be decoded in parts.**  If its first part is decoded to the end, decoding all of
it finds the instructions of the first part and then those of the second, and ends as the second
part does.  Asking for some instructions one by one does not change what is found in the end. -/
theorem decodeAll_in_parts (image : Image) (start : Cursor) (first second : UInt32) :
    (first.toNat + second.toNat < 4294967296 →
      ∀ d, (new image start first).decodeAll = (none, d) →
        let rest := (new image (start.advance first) second).decodeAll
        let whole := (new image start (first + second)).decodeAll
        whole.1 = rest.1 ∧ whole.2.decoded = d.decoded ++ rest.2.decoded) ∧
    ∀ (d : Decoder) (n : Nat), (d.after (List.replicate n .next)).decodeAll = d.decodeAll := by
  refine ⟨fun hsum d hd => ?_, decodeAll_after_nexts⟩
  intro rest whole
  have hle : first ≤ first + second := by
    rw [UInt32.le_iff_toNat_le, UInt32.toNat_add, Nat.mod_eq_of_lt hsum]
    exact Nat.le_add_right ..
  have hwhole : whole = (d.enlarge (first + second)).decodeAll := by
    have := decodeAll_enlarge (d := new image start first) hle
    rwa [hd] at this
  have hboundary : d.enlarge (first + second) =
      (new image (start.advance first) second).behind first d.decoded := by
    rw [eq_of_decodeAll_eq_none hd, enlarge, behind, new, UInt32.add_comm second,
      UInt32.zero_add, Array.append_empty]
  rw [hwhole, hboundary, decodeAll_behind (.new ..) (by omega)]
  exact ⟨rfl, rfl⟩

/-- A `mov` behind a prefix, and behind the boundary a prefix without an instruction. -/
theorem decodeAll_in_parts_lock_mov :
    let image := Image.zero.setRange 0 [0xF0, 0xB8, 0x05, 0x00, 0x90, 0xF0]
    ∃ d, (4 : UInt32).toNat + (2 : UInt32).toNat < 4294967296 ∧
      (new image ⟨0, 0⟩ 4).decodeAll = (none, d) ∧
      (new image ⟨0, 0⟩ 6).decodeAll.1 = some ⟨6, 0, .truncated⟩ ∧
      (new image ⟨0, 0⟩ 6).decodeAll.2.decoded =
        d.decoded ++ (new image ⟨0, 4⟩ 2).decodeAll.2.decoded := by
  intro image
  have hend : (new image ⟨0, 0⟩ 4).next.2.next.2.next.1 = .error .finished ∧
      (new image ⟨0, 4⟩ 2).next.2.next.2.next.1 = .error (.failed ⟨6, 0, .truncated⟩) := by
    decide +kernel
  have hfirst := decodeAll_of_finished hend.1
  have hsecond := decodeAll_of_failed hend.2
  rw [decodeAll_next, decodeAll_next] at hfirst hsecond
  obtain ⟨hparts, -⟩ := decodeAll_in_parts image ⟨0, 0⟩ 4 2
  obtain ⟨herror, hdecoded⟩ := hparts (by decide) _ hfirst
  exact ⟨_, by decide, hfirst, herror.trans (congrArg Prod.fst hsecond), hdecoded⟩

end Decoder
end I8086
