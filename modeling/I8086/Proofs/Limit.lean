import I8086.Decode.Stream
import I8086.Proofs.OpcodeMap

/-!
# Decoding within a limit

A search goes on after a format that was cut off, because a shorter one may still match.  None
does: all the formats that describe a stream give it the same length, so a limit either lets every
one of them through or cuts every one of them off.

* `firstMatch_of_isEncoding` is the search on a stream that starts an instruction: there is one
  instruction to find, and a limit that is too short finds it truncated.
* `firstMatch_of_not_isEncoding` is the search on any other stream, which is recognized as such
  once two bytes may be read.
* `decodeWithin_one_of_not_isEncoding` is what one byte alone tells: a byte that starts some
  instruction is taken for one that is cut off.
* `decodeOne_follows_opcode_map` and `decodeWithin_agrees_decodeOne` are what they come to.
-/

set_option autoImplicit false

namespace I8086

variable {image : Image} {cursor : Cursor}

/-! ## One format -/

namespace Table

variable {f : Format}

/-- A limit does not change what a format makes of a stream, it only lets it through or not. -/
theorem toOption_attempt (hf : f ∈ formats) (limit : UInt32) :
    (f.attempt image cursor limit).toOption =
      if Opcode.length (image.along cursor 0) (image.along cursor 1) ≤ limit.toNat then
        (f.attempt image cursor 1048576).toOption
      else none := by
  have hw := wellFormed f hf
  obtain ⟨ops, -, hiff⟩ := hw.attempt_eq_ok_iff image cursor
  refine Option.ext fun i => ?_
  rw [toOption_eq_some_iff, hiff]
  by_cases hl : Opcode.length (image.along cursor 0) (image.along cursor 1) ≤ limit.toNat
  · rw [if_pos hl, toOption_eq_some_iff, hiff]
    refine and_congr_left fun _ => and_congr_right fun hd => ?_
    rw [sizeAt_eq_length hf hd]
    exact iff_of_true hl (Nat.le_trans (Opcode.length_le _ _) (by decide))
  · rw [if_neg hl]
    refine iff_of_false ?_ (fun h => Option.some_ne_none _ h.symm)
    rintro ⟨⟨hd, hs⟩, -⟩
    exact hl (sizeAt_eq_length hf hd ▸ hs)

theorem isCut_of_describes (hf : f ∈ formats) (hd : f.Describes (image.along cursor))
    {limit : UInt32}
    (hl : ¬ Opcode.length (image.along cursor 0) (image.along cursor 1) ≤ limit.toNat) :
    f.isCut image cursor limit = true := by
  obtain ⟨ops, -, h⟩ := (wellFormed f hf).attempt_eq image cursor
  rw [← sizeAt_eq_length hf hd] at hl
  rw [Format.isCut, h limit, if_pos (hd.agreesWithin _), if_neg hl]

theorem isCut_of_not_describes (hf : f ∈ formats) (hd : ¬ f.Describes (image.along cursor))
    {limit : UInt32} (hl : 2 ≤ limit.toNat) : f.isCut image cursor limit = false := by
  have hw := wellFormed f hf
  obtain ⟨ops, -, h⟩ := hw.attempt_eq image cursor
  have ha : ¬ agreesWithin (image.along cursor) limit.toNat f.places = true := fun ha =>
    hd (hw.describes_of_agreesWithin (Nat.le_trans hw.headSize_le hl) ha)
  rw [Format.isCut, h limit, if_neg ha]

end Table

/-! ## The whole table -/

theorem findSome?_congr {α β : Type} {a b : α → Option β} {l : List α} (h : ∀ x ∈ l, a x = b x) :
    l.findSome? a = l.findSome? b := by
  induction l with
  | nil => rfl
  | cons x rest ih =>
    rw [List.findSome?_cons, List.findSome?_cons, h x (List.mem_cons_self ..),
      ih fun y hy => h y (List.mem_cons_of_mem _ hy)]

theorem firstMatch_of_isEncoding
    (h : Opcode.isEncoding (image.along cursor 0) (image.along cursor 1) = true) :
    ∃ i : Instruction,
      i.size.toNat = Opcode.length (image.along cursor 0) (image.along cursor 1) ∧
      ∀ limit : UInt32, firstMatch image cursor limit false Table.formats =
        if i.size.toNat ≤ limit.toNat then .ok i else .error .truncated := by
  obtain ⟨f, hf, hd⟩ := Table.isEncoding_iff.1 h
  obtain ⟨j, hj, -⟩ := (Table.wellFormed f hf).attempt_isOk hd
  have hsome : (Table.formats.findSome? fun f =>
      (f.attempt image cursor 1048576).toOption).isSome = true :=
    List.findSome?_isSome_iff.2 ⟨f, hf, by rw [hj]; rfl⟩
  obtain ⟨i, hi⟩ := Option.isSome_iff_exists.1 hsome
  obtain ⟨g, hg, hgi⟩ := List.exists_of_findSome?_eq_some hi
  have hgi := toOption_eq_some_iff.1 hgi
  have hsize : i.size.toNat = Opcode.length (image.along cursor 0) (image.along cursor 1) := by
    rw [(Table.wellFormed g hg).size_of_attempt hgi,
      Table.sizeAt_eq_length hg ((Table.wellFormed g hg).describes_of_attempt hgi)]
  refine ⟨i, hsize, fun limit => ?_⟩
  rw [firstMatch_eq, findSome?_congr fun f hf => Table.toOption_attempt hf limit, hsize]
  by_cases hl : Opcode.length (image.along cursor 0) (image.along cursor 1) ≤ limit.toNat
  · simp only [if_pos hl, hi]
  · have hcut : (Table.formats.any fun f => f.isCut image cursor limit) = true :=
      List.any_eq_true.2 ⟨f, hf, Table.isCut_of_describes hf hd hl⟩
    simp only [if_neg hl, hcut, Bool.or_true, if_true, List.findSome?_eq_none_iff.2 fun _ _ => rfl]

/-- Where there is no instruction, the search only decides whether something was cut off. -/
theorem firstMatch_eq_error
    (h : ¬ Opcode.isEncoding (image.along cursor 0) (image.along cursor 1) = true)
    (limit : UInt32) :
    firstMatch image cursor limit false Table.formats =
      .error (if Table.formats.any fun f => f.isCut image cursor limit then .truncated
        else .unrecognized) := by
  have hnone :
      (Table.formats.findSome? fun f => (f.attempt image cursor limit).toOption) = none := by
    refine List.findSome?_eq_none_iff.2 fun f hf => ?_
    refine Option.eq_none_iff_forall_ne_some.2 fun i hi => h (Table.isEncoding_iff.2 ⟨f, hf, ?_⟩)
    exact (Table.wellFormed f hf).describes_of_attempt (toOption_eq_some_iff.1 hi)
  rw [firstMatch_eq, hnone, Bool.false_or]

theorem firstMatch_of_not_isEncoding
    (h : ¬ Opcode.isEncoding (image.along cursor 0) (image.along cursor 1) = true)
    (limit : UInt32) :
    ∃ cause, firstMatch image cursor limit false Table.formats = .error cause ∧
      (2 ≤ limit.toNat → cause = .unrecognized) := by
  refine ⟨_, firstMatch_eq_error h limit, fun hl => ?_⟩
  have hcut : (Table.formats.any fun f => f.isCut image cursor limit) = false := by
    refine List.any_eq_false.2 fun f hf hc => ?_
    have hd : ¬ f.Describes (image.along cursor) := fun hd => h (Table.isEncoding_iff.2 ⟨f, hf, hd⟩)
    exact Bool.false_ne_true ((Table.isCut_of_not_describes hf hd hl).symm.trans hc)
  rw [hcut]
  rfl

/-! ## One byte

With a single byte to read, a search cannot see what the second byte of an encoding has to be.  It
takes every first byte that starts some encoding for one that was cut off. -/

theorem agreesWithin_congr {a b : Nat → UInt8} {limit : Nat} (h : ∀ k < limit, a k = b k)
    (xs : List Placed) : agreesWithin a limit xs = agreesWithin b limit xs := by
  refine List.all_congr rfl fun x => ?_
  by_cases hx : limit ≤ x.place / 8
  · rw [decide_eq_true hx, Bool.true_or, Bool.true_or]
  · have hvalue : x.value a = x.value b := by
      rw [Placed.value, Placed.value, bitsAt, bitsAt, h _ (Nat.not_le.1 hx)]
    rw [Placed.agrees, Placed.agrees, hvalue]

/-- The literals of the bytes that may be read have the bits that the format fixes there. -/
theorem Format.WellFormed.fitsByte_of_agreesWithin {f : Format} (hw : f.WellFormed)
    {bytes : Nat → UInt8} {limit k : Nat} (hk : k < limit)
    (h : agreesWithin bytes limit f.places = true) : f.fitsByte k (bytes k) = true := by
  rw [fitsByte, Nat.beq_eq]
  refine and_foldr_or fun x hx => ?_
  obtain ⟨hmem, hfix⟩ := List.mem_filter.1 hx
  have hplace : x.place / 8 = k := by
    simp only [Placed.fixes, Bool.and_eq_true, beq_iff_eq] at hfix
    exact hfix.2
  have hagrees := List.all_eq_true.1 h x hmem
  rw [decide_eq_false (by omega), Bool.false_or] at hagrees
  exact (Placed.agrees_iff_and_mask (hw.fits x hmem) hfix).1 hagrees

/-- Every entry leaves some second byte. -/
theorem Table.exists_fitsByte_one {f : Format} (hf : f ∈ formats) :
    ∃ second, f.fitsByte 1 second = true := by
  have hmask : ∀ m ∈ Opcode.secondMasks, ∃ second ∈ Opcode.extensions,
      (second.toNat &&& m.1).beq m.2 = true := by
    decide
  obtain ⟨second, -, h⟩ := hmask _ (regular f hf).second
  exact ⟨second, h⟩

/-- A first byte is in use exactly if some byte can follow it. -/
theorem Opcode.exists_isEncoding_iff (b : UInt8) :
    (∃ second, isEncoding b second = true) ↔ isUnused b = false := by
  constructor
  · rintro ⟨second, h⟩
    rw [isEncoding, Bool.and_eq_true, Bool.not_eq_true'] at h
    exact h.1
  · intro h
    have hsome : ∀ b : UInt8, ∃ second ∈ extensions, admits b second = true :=
      forall_byte (by decide +kernel)
    obtain ⟨second, -, hadmits⟩ := hsome b
    exact ⟨second, by rw [isEncoding, h, hadmits]; rfl⟩

theorem any_isCut_one
    (h : ¬ Opcode.isEncoding (image.along cursor 0) (image.along cursor 1) = true) :
    (Table.formats.any fun f => f.isCut image cursor 1) =
      !Opcode.isUnused (image.along cursor 0) := by
  -- only the first byte counts, so another one may stand behind it
  let other (second : UInt8) (k : Nat) : UInt8 := if k = 0 then image.along cursor 0 else second
  have hother : ∀ second, ∀ k < 1, image.along cursor k = other second k := by
    intro second k hk
    rw [Nat.lt_one_iff.1 hk]
    rfl
  refine Bool.eq_iff_iff.2 ?_
  rw [List.any_eq_true, Bool.not_eq_true', ← Opcode.exists_isEncoding_iff]
  constructor
  · rintro ⟨f, hf, hcut⟩
    have hw := Table.wellFormed f hf
    obtain ⟨ops, -, hattempt⟩ := hw.attempt_eq image cursor
    rw [Format.isCut, hattempt 1] at hcut
    have hagrees : agreesWithin (image.along cursor) 1 f.places = true := by
      by_contra hno
      rw [show (1 : UInt32).toNat = 1 from rfl, if_neg hno] at hcut
      cases hcut
    have hfirst : f.fitsByte 0 (image.along cursor 0) = true :=
      hw.fitsByte_of_agreesWithin Nat.one_pos hagrees
    obtain ⟨second, hsecond⟩ := Table.exists_fitsByte_one hf
    refine ⟨second, (@Table.isEncoding_iff (other second)).2 ⟨f, hf, ?_⟩⟩
    exact (Table.describes_iff hf).2 ⟨hfirst, hsecond⟩
  · rintro ⟨second, hsecond⟩
    obtain ⟨f, hf, hd⟩ := (@Table.isEncoding_iff (other second)).1 hsecond
    have hw := Table.wellFormed f hf
    have hagrees : agreesWithin (image.along cursor) (1 : UInt32).toNat f.places = true := by
      rw [show (1 : UInt32).toNat = 1 from rfl, agreesWithin_congr (hother second)]
      exact hd.agreesWithin 1
    -- a head of one byte would describe the stream
    have hhead : ¬ f.headSize ≤ 1 := fun hle =>
      h (Table.isEncoding_iff.2 ⟨f, hf, hw.describes_of_agreesWithin hle hagrees⟩)
    have hsize : ¬ f.sizeAt (image.along cursor) ≤ (1 : UInt32).toNat := by
      rw [show (1 : UInt32).toNat = 1 from rfl, Format.sizeAt]
      omega
    obtain ⟨ops, -, hattempt⟩ := hw.attempt_eq image cursor
    refine ⟨f, hf, ?_⟩
    rw [Format.isCut, hattempt 1, if_pos hagrees, if_neg hsize]

/-! ## Decoding -/

/-- The limit of `decodeOne` is longer than every instruction. -/
theorem decodeWithin_of_isEncoding (pending : Pending)
    (h : Opcode.isEncoding (image.along cursor 0) (image.along cursor 1) = true) :
    ∃ x : Decoded, decodeOne pending image cursor = .ok x ∧
      x.instruction.size.toNat = Opcode.length (image.along cursor 0) (image.along cursor 1) ∧
      ∀ limit : UInt32, decodeWithin pending image cursor limit =
        if x.instruction.size ≤ limit then .ok x else .error .truncated := by
  obtain ⟨i, hsize, hfound⟩ := firstMatch_of_isEncoding h
  have hlimit : ∀ limit : UInt32, decodeWithin pending image cursor limit =
      if i.size ≤ limit then
        .ok ⟨pending.attach i, cursor.advance i.size, pending.after (pending.attach i)⟩
      else .error .truncated := by
    intro limit
    rw [decodeWithin, decodeWith, hfound limit]
    by_cases hl : i.size ≤ limit
    · rw [if_pos (UInt32.le_iff_toNat_le.1 hl), if_pos hl]
      rfl
    · rw [if_neg fun hle => hl (UInt32.le_iff_toNat_le.2 hle), if_neg hl]
  have hle : i.size ≤ 1048576 :=
    UInt32.le_iff_toNat_le.2 (hsize ▸ Nat.le_trans (Opcode.length_le _ _) (by decide))
  exact ⟨_, (hlimit 1048576).trans (if_pos hle), hsize, hlimit⟩

theorem decodeWithin_of_not_isEncoding (pending : Pending)
    (h : ¬ Opcode.isEncoding (image.along cursor 0) (image.along cursor 1) = true)
    (limit : UInt32) :
    ∃ cause, decodeWithin pending image cursor limit = .error cause ∧
      (2 ≤ limit → cause = .unrecognized) := by
  obtain ⟨cause, hfound, hcause⟩ := firstMatch_of_not_isEncoding h limit
  exact ⟨cause, by rw [decodeWithin, decodeWith, hfound],
    fun hl => hcause (UInt32.le_iff_toNat_le.1 hl)⟩

/-- An instruction that has been found is found again within every limit that leaves room for it. -/
theorem decodeOne_of_decodeWithin {pending : Pending} {limit : UInt32} {x : Decoded}
    (h : decodeWithin pending image cursor limit = .ok x) :
    decodeOne pending image cursor = .ok x ∧
      ∀ limit', x.instruction.size ≤ limit' →
        decodeWithin pending image cursor limit' = .ok x := by
  by_cases he : Opcode.isEncoding (image.along cursor 0) (image.along cursor 1) = true
  · obtain ⟨y, hy, -, hlimit⟩ := decodeWithin_of_isEncoding pending he
    rw [hlimit] at h
    split at h
    · cases h
      exact ⟨hy, fun limit' hle => (hlimit limit').trans (if_pos hle)⟩
    · cases h
  · obtain ⟨cause, hfail, -⟩ := decodeWithin_of_not_isEncoding pending he limit
    rw [hfail] at h
    cases h

/-- Where there is no instruction, one byte is enough to say so only if it is not in use. -/
theorem decodeWithin_one_of_not_isEncoding (pending : Pending)
    (h : ¬ Opcode.isEncoding (image.along cursor 0) (image.along cursor 1) = true) :
    decodeWithin pending image cursor 1 =
      .error (if Opcode.isUnused (image.along cursor 0) then .unrecognized else .truncated) := by
  rw [decodeWithin, decodeWith, firstMatch_eq_error h, any_isCut_one h]
  cases Opcode.isUnused (image.along cursor 0) <;> rfl

theorem decodeOne_of_not_isEncoding (pending : Pending)
    (h : ¬ Opcode.isEncoding (image.along cursor 0) (image.along cursor 1) = true) :
    decodeOne pending image cursor = .error .unrecognized := by
  obtain ⟨cause, hfail, hcause⟩ := decodeWithin_of_not_isEncoding pending h 1048576
  rw [decodeOne, hfail, hcause (by decide)]

/-- The limit of `decodeOne` cuts nothing off. -/
theorem cause_of_decodeOne {pending : Pending} {cause : DecodeFailure}
    (h : decodeOne pending image cursor = .error cause) : cause = .unrecognized := by
  by_cases he : Opcode.isEncoding (image.along cursor 0) (image.along cursor 1) = true
  · obtain ⟨x, hx, -⟩ := decodeWithin_of_isEncoding pending he
    cases hx.symm.trans h
  · exact Except.error.inj (h.symm.trans (decodeOne_of_not_isEncoding pending he))

/-- **Decoding follows the opcode map.** An instruction is found exactly where the first two bytes
start one, and it has the length that they call for. -/
theorem decodeOne_follows_opcode_map (pending : Pending) (image : Image) (cursor : Cursor) :
    let first := image.get cursor.address
    let second := image.get (cursor.advance 1).address
    if Opcode.isEncoding first second then
      ∃ x, decodeOne pending image cursor = .ok x ∧
        x.instruction.size.toNat = Opcode.length first second
    else decodeOne pending image cursor = .error .unrecognized := by
  intro first second
  rw [show first = image.along cursor 0 from rfl,
    show second = image.along cursor 1 from (Image.along_one ..).symm]
  by_cases h : Opcode.isEncoding (image.along cursor 0) (image.along cursor 1) = true
  · obtain ⟨x, hx, hsize, -⟩ := decodeWithin_of_isEncoding pending h
    rw [if_pos h]
    exact ⟨x, hx, hsize⟩
  · rw [if_neg h]
    exact decodeOne_of_not_isEncoding pending h

/-- **A limit only cuts off.** Decoding within a limit gives what decoding without one gives, or
finds that instruction truncated; it never finds another one.  A decoder whose region ends inside
the instruction keeps its state, the prefixes that wait among it.  Where there is no instruction
two bytes are enough to say so. -/
theorem decodeWithin_agrees_decodeOne (pending : Pending) (image : Image) (cursor : Cursor)
    (limit : UInt32) :
    match decodeOne pending image cursor with
    | .ok x =>
      decodeWithin pending image cursor limit =
          (if x.instruction.size ≤ limit then .ok x else .error .truncated) ∧
        ∀ d : Decoder, d.pending = pending → d.image = image → d.cursor = cursor →
          d.pos < d.count → d.count - d.pos = limit → limit < x.instruction.size →
          d.next = (.error (.failed (.ofCursor image cursor .truncated)), d)
    | .error cause =>
      cause = .unrecognized ∧
        if 2 ≤ limit then decodeWithin pending image cursor limit = .error .unrecognized
        else decodeWithin pending image cursor limit = .error .unrecognized ∨
          decodeWithin pending image cursor limit = .error .truncated := by
  by_cases h : Opcode.isEncoding (image.along cursor 0) (image.along cursor 1) = true
  · obtain ⟨x, hx, -, hlimit⟩ := decodeWithin_of_isEncoding pending h
    rw [hx]
    refine ⟨hlimit limit, ?_⟩
    rintro d rfl rfl rfl hpos rfl hlt
    rw [Decoder.next, if_neg (UInt32.not_le.2 hpos), hlimit, if_neg (UInt32.not_le.2 hlt)]
  · rw [decodeOne_of_not_isEncoding pending h]
    obtain ⟨cause, hfail, hcause⟩ := decodeWithin_of_not_isEncoding pending h limit
    refine ⟨rfl, ?_⟩
    rw [hfail]
    split
    · rename_i hl
      rw [hcause hl]
    · cases cause with
      | unrecognized => exact .inl rfl
      | truncated => exact .inr rfl

end I8086
