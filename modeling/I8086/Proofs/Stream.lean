import I8086.Proofs.Prefixes

/-!
# What a decoder knows about its region

A decoder keeps four things that have to agree: how many bytes it has decoded, where it stands, the
instructions it found and the prefixes that wait.  `Decoder.Tracks` says how, and that is kept by
every call, also while the image is written to between the calls.

* `Decoder.next_cases` is all that `next` can do: fail and change nothing, or take one instruction.
* `Decoder.preserved_by_calls` is the induction over calls, once for all properties: asking for
  everything that is left is asking for the next instruction again and again.
* `Decoder.tracks_after` and `Decoder.decoded_prefix_after` are two uses of it, and
  `Decoder.Tracks.next_finished_iff` is what the invariant says about the end of the region.
-/

set_option autoImplicit false

namespace I8086

section Decoded

variable {p : Pending} {image : Image} {cursor : Cursor} {limit : UInt32} {x : Decoded}

theorem address_of_decodeWithin (h : decodeWithin p image cursor limit = .ok x) :
    x.instruction.address = cursor.address.toWord := by
  obtain ⟨f, hf, found, ha, -, rfl, -⟩ := decodeWithin_eq_ok h
  obtain ⟨ops, -, hiff⟩ := (Table.wellFormed f hf).attempt_eq_ok_iff image cursor
  obtain ⟨-, rfl⟩ := (hiff limit found).1 ha
  rfl

theorem cursor_of_decodeWithin (h : decodeWithin p image cursor limit = .ok x) :
    x.cursor = cursor.advance x.instruction.size := by
  obtain ⟨f, hf, found, ha, -, rfl, -⟩ := decodeWithin_eq_ok h
  rfl

end Decoded

namespace Decoder

/-! ## Calls -/

/-- What can be asked of a decoder, and what can happen to its image in between. -/
inductive Call
  | next
  | decodeAll
  /-- A byte is written to the address with this number. -/
  | write (number : UInt32) (value : UInt8)

/-- Writes a byte into the image; outside of it there is nothing to write to. -/
def write8 (d : Decoder) (number : UInt32) (value : UInt8) : Decoder :=
  match d.image.write8 number value with
  | .ok image => { d with image }
  | .error _ => d

def call (d : Decoder) : Call → Decoder
  | .next => d.next.2
  | .decodeAll => d.decodeAll.2
  | .write number value => d.write8 number value

/-- The decoder after some calls. -/
def after (d : Decoder) (calls : List Call) : Decoder := calls.foldl call d

/-- The decoder with one more instruction. -/
def take (d : Decoder) (x : Decoded) : Decoder :=
  { d with
    pending := x.pending
    cursor := x.cursor
    pos := d.pos + x.instruction.size
    decoded := d.decoded.push x.instruction }

theorem next_cases (d : Decoder) :
    (∃ e, d.next = (.error e, d)) ∨
      ∃ x, d.pos < d.count ∧
        decodeWithin d.pending d.image d.cursor (d.count - d.pos) = .ok x ∧
        d.next = (.ok x.instruction, d.take x) := by
  rw [next]
  by_cases hp : d.pos ≥ d.count
  · rw [if_pos hp]
    split
    · exact .inl ⟨_, rfl⟩
    · exact .inl ⟨_, rfl⟩
  · rw [if_neg hp]
    cases hx : decodeWithin d.pending d.image d.cursor (d.count - d.pos) with
    | error cause => exact .inl ⟨_, rfl⟩
    | ok x => exact .inr ⟨x, UInt32.not_le.1 hp, rfl, rfl⟩

theorem next_of_decodeWithin {d : Decoder} {x : Decoded} (hpos : d.pos < d.count)
    (h : decodeWithin d.pending d.image d.cursor (d.count - d.pos) = .ok x) :
    d.next = (.ok x.instruction, d.take x) := by
  rw [next, if_neg (UInt32.not_le.2 hpos), h]
  rfl

theorem next_of_decodeWithin_error {d : Decoder} {cause : DecodeFailure} (hpos : d.pos < d.count)
    (h : decodeWithin d.pending d.image d.cursor (d.count - d.pos) = .error cause) :
    d.next = (.error (.failed (.ofCursor d.image d.cursor cause)), d) := by
  rw [next, if_neg (UInt32.not_le.2 hpos), h]

theorem eq_of_next_error {d d' : Decoder} {e : StreamEnd} (h : d.next = (.error e, d')) :
    d' = d := by
  rcases d.next_cases with ⟨e', he⟩ | ⟨x, -, -, hx⟩
  · rw [he] at h
    exact (Prod.mk.inj h).2.symm
  · rw [hx] at h
    cases h

section Preserved

variable {P : Decoder → Prop} (hnext : ∀ d, P d → P d.next.2)

include hnext in
theorem preserved_by_decodeAll (d : Decoder) (h : P d) : P d.decodeAll.2 := by
  fun_induction decodeAll d with
  | case1 d i d' hd ih => exact ih (by simpa only [hd] using hnext d h)
  | case2 d d' hd => simpa only [hd] using hnext d h
  | case3 d e d' hd => simpa only [hd] using hnext d h

include hnext in
/-- What `next` keeps and what does not look at the image is kept by all calls. -/
theorem preserved_by_calls (hwrite : ∀ d image, P d → P { d with image }) {d : Decoder} (h : P d)
    (calls : List Call) : P (d.after calls) := by
  induction calls generalizing d with
  | nil => exact h
  | cons call rest ih =>
    refine ih ?_
    cases call with
    | next => exact hnext d h
    | decodeAll => exact preserved_by_decodeAll hnext d h
    | write number value =>
      simp only [Decoder.call, write8]
      split
      · exact hwrite d _ h
      · exact h

end Preserved

/-! ## The invariant -/

/-- The sizes of the instructions found so far. -/
def sizes (d : Decoder) : List Nat := d.decoded.toList.map fun i => i.size.toNat

theorem sizes_take (d : Decoder) (x : Decoded) :
    (d.take x).sizes = d.sizes ++ [x.instruction.size.toNat] := by
  rw [sizes, take, Array.toList_push, List.map_append]
  rfl

theorem length_sizes (d : Decoder) : d.sizes.length = d.decoded.size := by
  rw [sizes, List.length_map, Array.length_toList]

/-- The instructions found so far lie one behind the other from the start of the region to where
the decoder stands, and something waits exactly if the last of them is a prefix. -/
structure Tracks (start : Cursor) (count : UInt32) (d : Decoder) : Prop where
  count_eq : d.count = count
  sum_sizes : d.sizes.sum = d.pos.toNat
  pos_le : d.pos ≤ count
  cursor_eq : d.cursor = start.advance d.pos
  address_eq : ∀ (k : Nat) (hk : k < d.decoded.size),
    d.decoded[k].address = (start.advance (.ofNat (d.sizes.take k).sum)).address.toWord
  waits_eq : d.pending.waits = d.decoded.back?.any Instruction.isPrefix

namespace Tracks

variable {start : Cursor} {count : UInt32} {d : Decoder}

theorem new (image : Image) (start : Cursor) (count : UInt32) :
    (Decoder.new image start count).Tracks start count where
  count_eq := rfl
  sum_sizes := rfl
  pos_le := UInt32.zero_le
  cursor_eq := start.advance_zero.symm
  address_eq := fun k hk => absurd hk (Nat.not_lt_zero k)
  waits_eq := rfl

/-- An instruction that ends in the region is taken without leaving it. -/
theorem toNat_pos_take (h : d.Tracks start count) {x : Decoded} (hp : d.pos < d.count)
    (hx : decodeWithin d.pending d.image d.cursor (d.count - d.pos) = .ok x) :
    (d.take x).pos.toNat = d.pos.toNat + x.instruction.size.toNat ∧ (d.take x).pos ≤ count := by
  have hsize := (size_of_decodeWithin hx).2
  have hleft : (d.count - d.pos).toNat = d.count.toNat - d.pos.toNat :=
    UInt32.toNat_sub_of_le _ _ (UInt32.le_of_lt hp)
  have hlt := UInt32.lt_iff_toNat_lt.1 hp
  have hcount := d.count.toNat_lt
  have hpos : (d.take x).pos.toNat = d.pos.toNat + x.instruction.size.toNat := by
    rw [Decoder.take, UInt32.toNat_add, Nat.mod_eq_of_lt (by omega)]
  refine ⟨hpos, ?_⟩
  rw [UInt32.le_iff_toNat_le, hpos, ← h.count_eq]
  omega

theorem take (h : d.Tracks start count) {x : Decoded} (hp : d.pos < d.count)
    (hx : decodeWithin d.pending d.image d.cursor (d.count - d.pos) = .ok x) :
    (d.take x).Tracks start count where
  count_eq := h.count_eq
  sum_sizes := by
    rw [sizes_take, List.sum_append, h.sum_sizes, (h.toNat_pos_take hp hx).1]
    rfl
  pos_le := (h.toNat_pos_take hp hx).2
  cursor_eq := by
    rw [Decoder.take, cursor_of_decodeWithin hx, h.cursor_eq, Cursor.advance_advance]
  address_eq := by
    intro k hk
    have hsize : k < d.decoded.size + 1 := by simpa [Decoder.take] using hk
    rw [sizes_take, List.take_append_of_le_length (by rw [length_sizes]; omega)]
    rcases Nat.lt_or_eq_of_le (Nat.le_of_lt_succ hsize) with hlt | rfl
    · rw [← h.address_eq k hlt]
      exact congrArg Instruction.address (Array.getElem_push_lt hlt)
    · have hlast : (d.take x).decoded[d.decoded.size] = x.instruction := Array.getElem_push_eq
      rw [hlast, address_of_decodeWithin hx, h.cursor_eq, ← d.length_sizes, List.take_length,
        h.sum_sizes, UInt32.ofNat_toNat]
  waits_eq := by
    rw [Decoder.take, Array.back?_push]
    exact waits_of_decodeWithin hx

theorem next (h : d.Tracks start count) : d.next.2.Tracks start count := by
  rcases d.next_cases with ⟨e, he⟩ | ⟨x, hp, hx, hd⟩
  · rw [he]
    exact h
  · rw [hd]
    exact h.take hp hx

theorem setImage (h : d.Tracks start count) (image : Image) :
    { d with image }.Tracks start count :=
  ⟨h.count_eq, h.sum_sizes, h.pos_le, h.cursor_eq, h.address_eq, h.waits_eq⟩

end Tracks

theorem tracks_after (image : Image) (start : Cursor) (count : UInt32) (calls : List Call) :
    ((new image start count).after calls).Tracks start count :=
  preserved_by_calls (fun _ h => h.next) (fun _ image h => h.setImage image) (.new ..) calls

/-- Calls only ever add instructions at the end. -/
theorem decoded_prefix_after (d : Decoder) (calls : List Call) :
    d.decoded.toList <+: (d.after calls).decoded.toList := by
  refine preserved_by_calls (P := fun d' => d.decoded.toList <+: d'.decoded.toList) ?_
    (fun _ _ h => h) (List.prefix_refl _) calls
  intro d' h
  rcases d'.next_cases with ⟨e, he⟩ | ⟨x, -, -, hx⟩
  · rw [he]
    exact h
  · rw [hx]
    refine h.trans ?_
    rw [take, Array.toList_push]
    exact List.prefix_append ..

/-! ## The end of the region -/

theorem next_of_count_le {d : Decoder} (h : d.count ≤ d.pos) :
    d.next = (.error (if d.pending.waits then .failed (.ofCursor d.image d.cursor .truncated)
      else .finished), d) := by
  rw [next, if_pos h]
  cases d.pending.waits <;> rfl

theorem count_le_of_next_finished {d : Decoder} (h : d.next.1 = .error .finished) :
    d.count ≤ d.pos := by
  refine UInt32.not_lt.1 fun hp => ?_
  rw [next, if_neg (UInt32.not_le.2 hp)] at h
  cases hx : decodeWithin d.pending d.image d.cursor (d.count - d.pos) with
  | error cause => rw [hx] at h; cases h
  | ok x => rw [hx] at h; cases h

namespace Tracks

variable {start : Cursor} {count : UInt32} {d : Decoder}

theorem count_le_iff (h : d.Tracks start count) : d.count ≤ d.pos ↔ d.pos = count := by
  rw [h.count_eq]
  exact ⟨fun hle => UInt32.le_antisymm h.pos_le hle, fun heq => heq ▸ UInt32.le_refl _⟩

theorem next_finished_iff (h : d.Tracks start count) :
    d.next.1 = .error .finished ↔
      d.pos = count ∧ ∀ i, d.decoded.back? = some i → i.isPrefix = false := by
  have hlast : d.pending.waits = false ↔ ∀ i, d.decoded.back? = some i → i.isPrefix = false := by
    rw [h.waits_eq, Bool.eq_false_iff, Ne, Option.any_eq_true]
    constructor
    · intro hnone i hi
      exact Bool.eq_false_iff.2 fun hp => hnone ⟨i, hi, hp⟩
    · rintro hall ⟨i, hi, hp⟩
      exact Bool.false_ne_true ((hall i hi).symm.trans hp)
  rw [← hlast, ← h.count_le_iff]
  constructor
  · intro hnext
    have hle := count_le_of_next_finished hnext
    refine ⟨hle, Bool.eq_false_iff.2 fun hwaits => ?_⟩
    rw [next_of_count_le hle, if_pos hwaits] at hnext
    cases hnext
  · rintro ⟨hle, hwaits⟩
    rw [next_of_count_le hle, hwaits]
    rfl

theorem next_truncated (h : d.Tracks start count) (hpos : d.pos = count) {i : Instruction}
    (hlast : d.decoded.back? = some i) (hi : i.isPrefix = true) :
    d.next.1 = .error (.failed (.ofCursor d.image d.cursor .truncated)) := by
  have hwaits : d.pending.waits = true := by
    rw [h.waits_eq, hlast]
    exact hi
  rw [next_of_count_le (h.count_le_iff.2 hpos), if_pos hwaits]

end Tracks

/-- **A decoder and its region.** After any calls, and whatever is written to the image in between,
the instructions found so far tile the region from its start to where the decoder stands.  Calls
add to them only at the end, a `next` that fails changes nothing, and the region counts as used up
exactly if no prefix is left over at its end. -/
theorem calls_tile_region (image : Image) (start : Cursor) (count : UInt32) (calls : List Call) :
    let d := (new image start count).after calls
    d.sizes.sum = d.pos.toNat ∧ d.pos ≤ count ∧ d.cursor = start.advance d.pos ∧
    (∀ (k : Nat) (hk : k < d.decoded.size),
      d.decoded[k].address = (start.advance (.ofNat (d.sizes.take k).sum)).address.toWord) ∧
    (∀ later : List Call, d.decoded.toList <+: (d.after later).decoded.toList) ∧
    (∀ (e : StreamEnd) (d' : Decoder), d.next = (.error e, d') →
      d' = d ∧ d'.next = (.error e, d')) ∧
    (d.next.1 = .error .finished ↔
      d.pos = count ∧ ∀ i, d.decoded.back? = some i → i.isPrefix = false) ∧
    ∀ i, d.pos = count → d.decoded.back? = some i → i.isPrefix = true →
      d.next.1 = .error (.failed (.ofCursor d.image d.cursor .truncated)) := by
  intro d
  have h : d.Tracks start count := tracks_after image start count calls
  refine ⟨h.sum_sizes, h.pos_le, h.cursor_eq, h.address_eq, d.decoded_prefix_after, ?_,
    h.next_finished_iff, fun i hpos hlast hi => h.next_truncated hpos hlast hi⟩
  intro e d' he
  have hsame := eq_of_next_error he
  subst hsame
  exact ⟨rfl, he⟩

/-- Two bytes of which the second starts no instruction, until a prefix is written over it. -/
theorem next_truncated_after_write :
    let d := (new (Image.zero.setRange 0 [0xF0, 0x60]) ⟨0, 0⟩ 2).after
      [.next, .next, .write 1 0x26, .next]
    d.pos = 2 ∧ d.decoded.back?.any Instruction.isPrefix = true ∧
      d.next.1 = .error (.failed (.ofCursor d.image d.cursor .truncated)) := by
  intro d
  have hend : d.pos = 2 ∧ d.decoded.back?.any Instruction.isPrefix = true := by
    decide +kernel
  obtain ⟨i, hi, hp⟩ := (Option.any_eq_true ..).1 hend.2
  obtain ⟨-, -, -, -, -, -, -, htruncated⟩ :=
    calls_tile_region (Image.zero.setRange 0 [0xF0, 0x60]) ⟨0, 0⟩ 2
      [.next, .next, .write 1 0x26, .next]
  exact ⟨hend.1, hend.2, htruncated i hend.1 hi hp⟩

end Decoder
end I8086
