import I8086.Proofs.Packing
import I8086.Proofs.Stream

/-!
# Which bytes a decoder has decoded

The instructions of a region, each with the bytes it was decoded from, put the region together
again.  What that says about a program depends on its size: a cursor has an offset of sixteen bits,
so a decoder that starts with a program of more than 64 KiB goes back to the first byte when the
segment is used up.

* `Image.stretch` is a number of bytes along a cursor, and `Instruction.cursorIn` finds back where
  an instruction was decoded.
* `Decoder.Covers` is the invariant, and `Decoder.covers_decodeAll` what it comes to for a region.
* `Decoder.decodeAll_reads_segment_again` is the case of a program.  The program comes out as it was
  up to 64 KiB; beyond that its first 64 KiB are read again (`Decoder.decodeAll_misses_last_byte`).
-/

set_option autoImplicit false

namespace I8086

/-! ## Bytes along a cursor -/

namespace Image

/-- `count` bytes from a cursor on, which wraps inside its segment. -/
def stretch (image : Image) (cursor : Cursor) (count : Nat) : List UInt8 :=
  (List.range count).map (image.along cursor)

@[simp] theorem length_stretch (image : Image) (cursor : Cursor) (count : Nat) :
    (image.stretch cursor count).length = count := by
  rw [stretch, List.length_map, List.length_range]

theorem getElem?_stretch (image : Image) (cursor : Cursor) {count k : Nat} (hk : k < count) :
    (image.stretch cursor count)[k]? = some (image.along cursor k) := by
  rw [stretch, List.getElem?_map, List.getElem?_range hk]
  rfl

theorem stretch_add (image : Image) (cursor : Cursor) (m n : Nat) :
    image.stretch cursor (m + n) =
      image.stretch cursor m ++ image.stretch (cursor.advance (.ofNat m)) n := by
  rw [stretch, List.range_add, List.map_append, List.map_map]
  refine congrArg (_ ++ ·) (List.map_congr_left fun k _ => ?_)
  rw [Function.comp, along, along, Cursor.addressAt_add]

theorem stretch_layOut (image : Image) (cursor : Cursor) {bytes : List UInt8}
    (h : bytes.length ≤ 65536) :
    (image.layOut cursor bytes).stretch cursor bytes.length = bytes := by
  refine List.ext_getElem (length_stretch ..) fun k hk hk' => ?_
  rw [← Option.some.injEq, ← List.getElem?_eq_getElem, getElem?_stretch _ _ hk',
    along_layOut h hk']

end Image

/-- The place in a segment that has the address of the instruction. -/
def Instruction.cursorIn (i : Instruction) (segment : UInt16) : Cursor :=
  ⟨segment, i.address.toUInt16 - segment * 16⟩

theorem Instruction.cursorIn_eq {i : Instruction} {c : Cursor}
    (h : i.address = c.address.toWord) : i.cursorIn c.segment = c := by
  have haddress : c.address.toWord.toUInt16 = c.offset + c.segment * 16 := by
    rw [← UInt16.toNat_inj, UInt32.toNat_toUInt16, Address.toNat_toWord, Cursor.address,
      Cursor.addressAt, Address.toNat_ofSegment, imageSize, UInt16.toNat_add, UInt16.toNat_mul]
    simp
    omega
  rw [cursorIn, h, haddress, UInt16.add_sub_cancel]

/-! ## The bytes of the decoded instructions -/

namespace Decoder

/-- The bytes that the instructions found so far were decoded from, one after the other. -/
def decodedBytes (d : Decoder) (segment : UInt16) : List UInt8 :=
  d.decoded.toList.flatMap fun i => d.image.stretch (i.cursorIn segment) i.size.toNat

/-- The instructions found so far put together what lies between the start of the region and the
cursor. -/
structure Covers (image : Image) (start : Cursor) (count : UInt32) (d : Decoder) : Prop where
  tracks : d.Tracks start count
  image_eq : d.image = image
  bytes_eq : d.decodedBytes start.segment = image.stretch start d.pos.toNat

namespace Covers

variable {image : Image} {start : Cursor} {count : UInt32} {d : Decoder}

theorem new (image : Image) (start : Cursor) (count : UInt32) :
    (Decoder.new image start count).Covers image start count :=
  ⟨.new image start count, rfl, rfl⟩

theorem take (h : d.Covers image start count) {x : Decoded} (hp : d.pos < d.count)
    (hx : decodeWithin d.pending d.image d.cursor (d.count - d.pos) = .ok x) :
    (d.take x).Covers image start count := by
  refine ⟨h.tracks.take hp hx, h.image_eq, ?_⟩
  have hcursor : x.instruction.cursorIn start.segment = start.advance (.ofNat d.pos.toNat) := by
    rw [UInt32.ofNat_toNat, ← h.tracks.cursor_eq,
      show start.segment = d.cursor.segment by rw [h.tracks.cursor_eq]; rfl]
    exact Instruction.cursorIn_eq (address_of_decodeWithin hx)
  have hbytes : (d.take x).decodedBytes start.segment = d.decodedBytes start.segment ++
      d.image.stretch (x.instruction.cursorIn start.segment) x.instruction.size.toNat := by
    rw [decodedBytes, Decoder.take, Array.toList_push, List.flatMap_append, List.flatMap_singleton]
    rfl
  rw [hbytes, h.bytes_eq, (h.tracks.toNat_pos_take hp hx).1, Image.stretch_add, hcursor, h.image_eq]

theorem next (h : d.Covers image start count) : d.next.2.Covers image start count := by
  rcases d.next_cases with ⟨e, he⟩ | ⟨x, hp, hx, hd⟩
  · rw [he]
    exact h
  · rw [hd]
    exact h.take hp hx

end Covers

/-- Decoding the rest of a region ends where the next instruction cannot be had, for the reason
that it reports. -/
theorem next_decodeAll (d : Decoder) :
    d.decodeAll.2.next.1 = .error (d.decodeAll.1.elim .finished .failed) := by
  fun_induction decodeAll d with
  | case1 d i d' hd ih => exact ih
  | case2 d d' hd =>
    rw [eq_of_next_error hd, hd]
    rfl
  | case3 d e d' hd =>
    rw [eq_of_next_error hd, hd]
    rfl

/-- The instructions of a region put its bytes together. -/
theorem covers_decodeAll {image : Image} {start : Cursor} {count : UInt32} {d : Decoder}
    (h : (new image start count).decodeAll = (none, d)) :
    d.image = image ∧ d.decodedBytes start.segment = image.stretch start count.toNat := by
  have hcovers : d.Covers image start count := by
    have := preserved_by_decodeAll (fun _ hd => Covers.next hd) _ (.new image start count)
    rwa [h] at this
  have hend := next_decodeAll (new image start count)
  rw [h] at hend
  rw [hcovers.bytes_eq, (hcovers.tracks.next_finished_iff.1 hend).1]
  exact ⟨hcovers.image_eq, rfl⟩

/-! ## Programs -/

theorem along_setRange_zero (program : List UInt8) (k : Nat) :
    (Image.zero.setRange 0 program).along ⟨0, 0⟩ k = program[k % 65536]?.getD 0 := by
  have haddress : (Cursor.addressAt ⟨0, 0⟩ (.ofNat k)).toNat = k % 65536 := by
    rw [Cursor.addressAt, Address.toNat_ofSegment, UInt16.toNat_zero, UInt16.toNat_ofNat',
      imageSize]
    omega
  rw [Image.along, Image.get_setRange, if_pos (Nat.zero_le _), haddress, Nat.sub_zero,
    Image.get_zero]

/-- The bytes of a decoded program, position by position. -/
theorem getElem?_decodedBytes {program : List UInt8} (hlen : program.length ≤ imageSize)
    {d : Decoder} (h : (ofProgram program).decodeAll = (none, d)) :
    (d.decodedBytes 0).length = program.length ∧
      ∀ k < program.length, (d.decodedBytes 0)[k]? = program[k % 65536]? := by
  have hcount : (UInt32.ofNat (min program.length imageSize)).toNat = program.length := by
    rw [Nat.min_eq_left hlen, UInt32.toNat_ofNat_of_lt' (Nat.lt_of_le_of_lt hlen (by decide))]
  have hbytes : d.decodedBytes 0 =
      (Image.zero.setRange 0 program).stretch ⟨0, 0⟩ program.length := by
    rw [← hcount]
    exact (covers_decodeAll h).2
  rw [hbytes]
  refine ⟨Image.length_stretch .., fun k hk => ?_⟩
  have hmod : k % 65536 < program.length := Nat.lt_of_le_of_lt (Nat.mod_le _ _) hk
  rw [Image.getElem?_stretch _ _ hk, along_setRange_zero, List.getElem?_eq_getElem hmod]
  rfl

/-- **What decoding a program covers.** If all of a program of up to one mebibyte is decoded, the
instructions have as many bytes as the program, and byte `k` of them is byte `k` modulo 64 KiB of
the program.  So they are the program if it does not exceed 64 KiB, and a larger one only if it
repeats its first 64 KiB. -/
theorem decodeAll_reads_segment_again (program : List UInt8) (hlen : program.length ≤ imageSize)
    (d : Decoder) (h : (ofProgram program).decodeAll = (none, d)) :
    (d.decodedBytes 0).length = program.length ∧
    (∀ k < program.length, (d.decodedBytes 0)[k]? = program[k % 65536]?) ∧
    (d.decodedBytes 0 = program ↔
      ∀ k, 65536 ≤ k → k < program.length → program[k]? = program[k % 65536]?) ∧
    (program.length ≤ 65536 → d.decodedBytes 0 = program) := by
  obtain ⟨hlength, hget⟩ := getElem?_decodedBytes hlen h
  have hsame : (∀ k, 65536 ≤ k → k < program.length → program[k]? = program[k % 65536]?) →
      d.decodedBytes 0 = program := by
    intro hrepeats
    refine List.ext_getElem? fun k => ?_
    by_cases hk : k < program.length
    · rw [hget k hk]
      by_cases hfirst : k < 65536
      · rw [Nat.mod_eq_of_lt hfirst]
      · exact (hrepeats k (Nat.not_lt.1 hfirst) hk).symm
    · rw [List.getElem?_eq_none (by omega), List.getElem?_eq_none (by omega)]
  refine ⟨hlength, hget, ⟨fun heq k _ hk => ?_, hsame⟩, fun hsmall => hsame fun k _ _ => by omega⟩
  rw [← hget k hk, heq]

theorem decodeAll_of_ok {d d' : Decoder} {i : Instruction} (h : d.next = (.ok i, d')) :
    d.decodeAll = d'.decodeAll := by
  rw [decodeAll]
  split
  · rename_i hok
    cases h.symm.trans hok
    rfl
  · rename_i hfinished
    cases h.symm.trans hfinished
  · rename_i hfailed
    cases h.symm.trans hfailed

theorem decodeAll_of_finished {d : Decoder} (h : d.next.1 = .error .finished) :
    d.decodeAll = (none, d) := by
  rw [decodeAll]
  split
  · rename_i hok
    rw [hok] at h
    cases h
  · rename_i hfinished
    rw [eq_of_next_error hfinished]
  · rename_i hfailed
    rw [hfailed] at h
    cases h

theorem decodeAll_of_failed {d : Decoder} {e : DecodeError}
    (h : d.next.1 = .error (.failed e)) : d.decodeAll = (some e, d) := by
  rw [decodeAll]
  split
  · rename_i hok
    rw [hok] at h
    cases h
  · rename_i hfinished
    rw [hfinished] at h
    cases h
  · rename_i hfailed
    rw [hfailed] at h
    cases h
    rw [eq_of_next_error hfailed]

/-- A prefix and an instruction of three bytes. -/
theorem decodeAll_covers_lock_mov :
    let program : List UInt8 := [0xF0, 0xB8, 0x05, 0x00]
    ∃ d, program.length ≤ imageSize ∧ (ofProgram program).decodeAll = (none, d) ∧
      d.decodedBytes 0 = program := by
  intro program
  have hnext : (ofProgram program).next.1 = .ok ⟨0, 1, .lock, .none, .empty⟩ ∧
      (ofProgram program).next.2.next.1 = .ok ⟨1, 3, .mov, ⟨17⟩,
        ⟨some (.register (.whole .a)), some (.immediate 5), none⟩⟩ ∧
      (ofProgram program).next.2.next.2.next.1 = .error .finished := by
    decide +kernel
  have hall : (ofProgram program).decodeAll = (none, (ofProgram program).next.2.next.2) := by
    rw [decodeAll_of_ok (Prod.ext hnext.1 rfl), decodeAll_of_ok (Prod.ext hnext.2.1 rfl),
      decodeAll_of_finished hnext.2.2]
  have hlen : program.length ≤ imageSize := by decide
  obtain ⟨-, -, -, hcovers⟩ := decodeAll_reads_segment_again program hlen _ hall
  exact ⟨_, hlen, hall, hcovers (by decide)⟩

/-! ## A program of more than one segment -/

/-- If something waits, the byte in front of the cursor is a prefix. -/
def WaitsBehind (start : Cursor) (d : Decoder) : Prop :=
  d.pending.waits = true → d.image.along start (d.pos.toNat - 1) ∈ Prefix.bytes

theorem Covers.waitsBehind_next {image : Image} {start : Cursor} {count : UInt32} {d : Decoder}
    (h : d.Covers image start count) (hd : d.WaitsBehind start) : d.next.2.WaitsBehind start := by
  rcases d.next_cases with ⟨e, he⟩ | ⟨x, hp, hx, hnext⟩
  · rw [he]
    exact hd
  · rw [hnext]
    intro hwaits
    have hprefix : x.instruction.isPrefix = true := (waits_of_decodeWithin hx).symm.trans hwaits
    have hbyte := (isPrefix_iff_of_decodeWithin hx).1 hprefix
    have hsize : x.instruction.size.toNat = 1 := by
      obtain ⟨f, hf, found, ha, hop, rfl, -⟩ := decodeWithin_eq_ok hx
      exact congrArg UInt32.toNat (Table.attempt_of_isPrefix hf (hop ▸ hprefix) ha).2.1
    rw [(h.tracks.toNat_pos_take hp hx).1, hsize, Nat.add_sub_cancel, Image.along,
      ← Cursor.address_advance, UInt32.ofNat_toNat, ← h.tracks.cursor_eq]
    exact hbyte

/-- A region in which every byte is an instruction of its own is decoded to its end, unless it ends
in a prefix. -/
theorem decodeAll_of_singles_within {image : Image} {start : Cursor} {count : UInt32}
    (hsingle : ∀ k < count.toNat, ∀ second, Opcode.isEncoding (image.along start k) second = true ∧
      Opcode.length (image.along start k) second = 1)
    (hlast : image.along start (count.toNat - 1) ∉ Prefix.bytes) :
    ∃ d, (new image start count).decodeAll = (none, d) := by
  have hinv : ∀ d : Decoder, d.Covers image start count ∧ d.WaitsBehind start →
      d.next.2.Covers image start count ∧ d.next.2.WaitsBehind start :=
    fun d hd => ⟨hd.1.next, hd.1.waitsBehind_next hd.2⟩
  have hfresh : (new image start count).pending.waits = false := rfl
  obtain ⟨hcovers, hwaits⟩ := preserved_by_decodeAll hinv (new image start count)
    ⟨.new image start count, fun h => absurd (hfresh.symm.trans h) Bool.false_ne_true⟩
  have hend := next_decodeAll (new image start count)
  revert hcovers hwaits hend
  generalize (new image start count).decodeAll = r
  obtain ⟨failure, d⟩ := r
  intro hcovers hwaits hend
  -- the decoder can only have stopped at the end of the region
  have hpos : d.count ≤ d.pos := by
    by_contra hlt
    have hbyte : ∀ k, d.image.along d.cursor k = image.along start (d.pos.toNat + k) := by
      intro k
      rw [hcovers.image_eq, Image.along, Image.along, Cursor.addressAt_add, UInt32.ofNat_toNat,
        ← hcovers.tracks.cursor_eq]
    have hinside : d.pos.toNat + 0 < count.toNat := by
      rw [← hcovers.tracks.count_eq]
      exact UInt32.lt_iff_toNat_lt.1 (UInt32.not_le.1 hlt)
    obtain ⟨x, -, hsize, hlimit⟩ := @decodeWithin_of_isEncoding d.image d.cursor d.pending
      (by rw [hbyte]; exact (hsingle _ hinside _).1)
    have hfits : x.instruction.size ≤ d.count - d.pos := by
      rw [UInt32.le_iff_toNat_le, hsize, hbyte, (hsingle _ hinside _).2,
        UInt32.toNat_sub_of_le _ _ (UInt32.le_of_lt (UInt32.not_le.1 hlt))]
      have := UInt32.lt_iff_toNat_lt.1 (UInt32.not_le.1 hlt)
      omega
    rw [next, if_neg hlt, hlimit, if_pos hfits] at hend
    cases hend
  have hnone : d.pending.waits = false := by
    refine Bool.eq_false_iff.2 fun hw => hlast ?_
    have := hwaits hw
    rwa [hcovers.image_eq, hcovers.tracks.count_le_iff.1 hpos] at this
  rw [next_of_count_le hpos, hnone] at hend
  cases failure with
  | none => exact ⟨d, rfl⟩
  | some e => cases hend

theorem decodeAll_of_singles {image : Image} {start : Cursor} {count : UInt32}
    (hsingle : ∀ k second, Opcode.isEncoding (image.along start k) second = true ∧
      Opcode.length (image.along start k) second = 1)
    (hlast : image.along start (count.toNat - 1) ∉ Prefix.bytes) :
    ∃ d, (new image start count).decodeAll = (none, d) :=
  decodeAll_of_singles_within (fun k _ => hsingle k) hlast

/-- `inc ax`, then `nop` behind prefixes up to the end of the segment. -/
def fullSegment : List UInt8 := 0x40 :: (List.replicate 65534 0xF0 ++ [0x90])

theorem length_fullSegment : fullSegment.length = 65536 := by
  rw [fullSegment, List.length_cons, List.length_append, List.length_replicate]
  rfl

theorem mem_fullSegment {b : UInt8} (h : b ∈ fullSegment) : b = 0x40 ∨ b = 0xF0 ∨ b = 0x90 := by
  rw [fullSegment, List.mem_cons, List.mem_append, List.mem_replicate, List.mem_singleton] at h
  tauto

/-- A `dec ax` behind the segment is not reached: the program is decoded to its end, but in its
place the `inc ax` at the start is decoded once more. -/
theorem decodeAll_misses_last_byte :
    (fullSegment ++ [0x48]).length ≤ imageSize ∧
      ∃ d, (ofProgram (fullSegment ++ [0x48])).decodeAll = (none, d) ∧
        d.decodedBytes 0 ≠ fullSegment ++ [0x48] := by
  have hlength : (fullSegment ++ [0x48]).length = 65537 := by
    rw [List.length_append, length_fullSegment]
    rfl
  have hlen : (fullSegment ++ [0x48]).length ≤ imageSize := by
    rw [hlength]
    decide
  have hcount : (UInt32.ofNat (min (fullSegment ++ [0x48]).length imageSize)).toNat = 65537 := by
    rw [Nat.min_eq_left hlen, hlength]
    rfl
  have hbyte : ∀ k, ∃ hk : k % 65536 < fullSegment.length,
      (Image.zero.setRange 0 (fullSegment ++ [0x48])).along ⟨0, 0⟩ k = fullSegment[k % 65536] := by
    intro k
    have hk : k % 65536 < fullSegment.length := by
      rw [length_fullSegment]
      exact Nat.mod_lt _ (by decide)
    refine ⟨hk, ?_⟩
    rw [along_setRange_zero, List.getElem?_append_left hk, List.getElem?_eq_getElem hk]
    rfl
  obtain ⟨d, hd⟩ : ∃ d, (ofProgram (fullSegment ++ [0x48])).decodeAll = (none, d) := by
    refine decodeAll_of_singles ?_ ?_
    · intro k second
      obtain ⟨hk, hb⟩ := hbyte k
      rw [hb]
      rcases mem_fullSegment (List.getElem_mem hk) with h | h | h <;> rw [h] <;> exact ⟨rfl, rfl⟩
    · obtain ⟨hk, hb⟩ := hbyte 65536
      have hfirst : fullSegment[65536 % 65536] = 0x40 := rfl
      rw [hcount, hb, hfirst]
      decide
  refine ⟨hlen, d, hd, fun heq => ?_⟩
  have hget := (getElem?_decodedBytes hlen hd).2 65536 (by rw [hlength]; decide)
  rw [heq, List.getElem?_append_right (by rw [length_fullSegment]), length_fullSegment] at hget
  cases hget

end Decoder
end I8086
