import I8086.Source.Xz.Basic

/-!
# Blocks

A block has a header, stored chunks of data, padding and a check of the data. Chunks that are packed
any further are refused. The data of a chunk passes through a dictionary whose size the header gives,
one filling after the other.

A header says itself how long it is. One whose own bytes end where a number or a filter should
start, or within a number, is the end of its stream rather than damage.
-/

set_option autoImplicit false

namespace I8086
namespace Xz

structure BlockHeader where
  /-- The number of bytes of the header. -/
  size : Nat
  compressedSize : Option Nat
  uncompressedSize : Option Nat
  /-- How many bytes the dictionary holds. -/
  dictionarySize : Nat
  deriving DecidableEq, Repr

/-- The dictionary size that a property byte stands for: two or three times a power of two, or the
largest number of 32 bits. -/
def dictionarySize? (property : UInt8) : Option Nat :=
  if property < 40 then some ((2 + property.toNat % 2) <<< (property.toNat / 2 + 11))
  else if property = 40 then some 4294967295
  else none

/-- Why a block header announces no block. -/
inductive HeaderStop
  /-- Its bytes end too early, and its stream with them. -/
  | ended
  | damaged (e : Error)
  deriving DecidableEq, Repr

namespace BlockHeader

/-- The number at the front of what is left of a header, read by `value`. -/
def parseNumber (value : List UInt8 → Except Error Nat) (bytes : List UInt8) :
    Except HeaderStop (Nat × List UInt8) :=
  match splitNumber? bytes with
  | none => .error .ended
  | some (digits, rest) =>
    match value digits with
    | .error e => .error (.damaged e)
    | .ok n => .ok (n, rest)

/-- A size that a block header may give. -/
def parseSize (given : Bool) (bytes : List UInt8) : Except HeaderStop (Option Nat × List UInt8) :=
  if given then do
    let (n, rest) ← parseNumber (Xz.parseSize .blockSize) bytes
    pure (some n, rest)
  else pure (none, bytes)

/-- The filter, which gives the size of the dictionary. -/
def parseFilter (bytes : List UInt8) : Except HeaderStop (Nat × List UInt8) := do
  let (id, rest) ← parseNumber Xz.parseNumber bytes
  if 0x4000000000000000 ≤ id then throw (.damaged .reservedFilter)
  if id ≠ 0x21 then throw (.damaged .filter)
  match rest with
  | [] => throw .ended
  | [_] => throw (.damaged .unexpectedEnd)
  | size :: property :: rest =>
    if size ≠ 1 then throw (.damaged .filterSize)
    match dictionarySize? property with
    | none => throw (.damaged .dictionarySize)
    | some n => pure (n, rest)

/-- A block header; `bytes` are all of them. -/
def parse (bytes : List UInt8) : Except HeaderStop BlockHeader := do
  let covered := bytes.take (bytes.length - 4)
  if numberOf (bytes.drop (bytes.length - 4)) ≠ (Checksum.crc32 covered).toNat then
    throw (.damaged .blockHeaderChecksum)
  let flags := (covered.drop 1).headD 0
  if flags &&& 0x3c ≠ 0 then throw (.damaged .reservedBlockFlags)
  let (compressedSize, rest) ← parseSize (flags &&& 0x40 != 0) (covered.drop 2)
  let (uncompressedSize, rest) ← parseSize (flags &&& 0x80 != 0) rest
  if flags &&& 0x03 ≠ 0 then throw (.damaged .filterCount)
  let (dictionarySize, rest) ← parseFilter rest
  if rest.any (· != 0) then throw (.damaged .blockHeaderPadding)
  pure ⟨bytes.length, compressedSize, uncompressedSize, dictionarySize⟩

end BlockHeader

/-- The header of a block whose first byte is `size`; `none` if it ends the stream. -/
def readBlockHeader (size : UInt8) (s : Source) : Except Error (Option BlockHeader × Source) := do
  let (bytes, s) ← read s ((size.toNat + 1) * 4 - 1)
  match BlockHeader.parse (size :: bytes) with
  | .ok header => pure (some header, s)
  | .error .ended => pure (none, s)
  | .error (.damaged e) => throw e

theorem length_of_readBlockHeader {size : UInt8} {s t : Source} {header : Option BlockHeader}
    (h : readBlockHeader size s = .ok (header, t)) : t.bytes.length ≤ s.bytes.length := by
  simp only [readBlockHeader, bind, Except.bind] at h
  split at h
  · simp at h
  · rename_i x hx
    have := length_of_read hx
    split at h
    · simp only [pure, Except.pure, Except.ok.injEq, Prod.mk.injEq] at h
      rw [← h.2]
      omega
    · simp only [pure, Except.pure, Except.ok.injEq, Prod.mk.injEq] at h
      rw [← h.2]
      omega
    · simp [throw, throwThe, MonadExceptOf.throw] at h

/-- The data of a block, as far as it was unpacked. -/
structure Chunks where
  data : List UInt8
  /-- How many bytes the chunks have in the container. -/
  packedSize : Nat
  /-- The input behind the chunks, or the reason why they have no end. -/
  rest : Except Error Source

/-- The fillings of a dictionary of `capacity` bytes that are complete. -/
def wholeFillings (capacity : Nat) (data : List UInt8) : List UInt8 :=
  data.take (data.length / capacity * capacity)

/-- How many bytes of its header follow the first one of a chunk: the size of the data, for a packed
chunk the packed size as well, and the properties if it brings new ones. Not every byte starts a
chunk. -/
def chunkHeaderSize? (control : UInt8) : Option Nat :=
  if control ≤ 2 then some 2
  else if control < 0x80 then none
  else if control < 0xc0 then some 4
  else some 5

/-- What is wrong with a chunk, by its first byte and the rest of its header. The first chunk of a
block has to clear the dictionary, and packed chunks have to set the properties behind stored
ones. -/
def chunkError? (first : Bool) (control : UInt8) (header : List UInt8) : Option Error :=
  if 0xc0 ≤ control && 224 < header.getLastD 0 then some .chunkProperties
  else if first && control != 1 && control < 0xe0 then some .chunkOrder
  else if control ≤ 2 then none
  else if control < 0xc0 then some .chunkOrder
  else some .packedChunk

/-- Unpacks chunks up to the end of the block, through a dictionary of `capacity` bytes. A chunk on
which the input ends is unpacked as far as it goes; where the input fails, the filling that it fails
in is lost. -/
def readChunks (capacity : Nat) (first : Bool) (s : Source) : Chunks :=
  match _ : s.bytes with
  | [] => ⟨[], 0, .error (endOf s)⟩
  | 0 :: rest => ⟨[], 1, .ok { s with bytes := rest }⟩
  | control :: rest =>
    match chunkHeaderSize? control with
    | none => ⟨[], 1, .error .chunkByte⟩
    | some headerSize =>
      let header := rest.take headerSize
      if header.length < headerSize then ⟨[], 1 + header.length, .error (endOf s)⟩
      else
        match chunkError? first control header with
        | some e => ⟨[], 1 + headerSize, .error e⟩
        | none =>
          let body := rest.drop headerSize
          let size := numberOf header.reverse + 1
          let data := body.take size
          if data.length = size then
            let more := readChunks capacity false { s with bytes := body.drop size }
            ⟨data ++ more.data, 1 + headerSize + size + more.packedSize, more.rest⟩
          else
            match s.failure with
            | none => ⟨data, 1 + headerSize + data.length, .error .unexpectedEnd⟩
            | some e =>
              ⟨wholeFillings capacity data, 1 + headerSize + data.length, .error (.source e)⟩
termination_by s.bytes.length
decreasing_by
  simp_all only [List.length_drop, List.length_cons]
  omega

theorem length_of_readChunks {capacity : Nat} {first : Bool} {s t : Source}
    (h : (readChunks capacity first s).rest = .ok t) : t.bytes.length ≤ s.bytes.length := by
  fun_induction readChunks capacity first s with
  | case1 => simp at h
  | case2 =>
    rename_i hs
    simp only [Except.ok.injEq] at h
    rw [← h, hs]
    simp
  | case3 => simp at h
  | case4 => simp at h
  | case5 => simp at h
  | case6 =>
    rename_i hs headerSize _ _ _ _ body size _ _ _ ih
    have := ih h
    simp only [body, List.length_drop] at this
    rw [hs, List.length_cons]
    omega
  | case7 => simp at h
  | case8 => simp at h

/-- Compares the padding and the check behind the chunks of a block with what they should be. -/
def readCheck (check : Check) (chunks : Chunks) (s : Source) : Except Error Source := do
  let (pad, s) ← read s (padding chunks.packedSize)
  let (bytes, s) ← read s check.size
  if pad.any (· != 0) then .error .blockPadding
  else if check.holds chunks.data bytes then .ok s
  else .error .blockChecksum

theorem length_of_readCheck {check : Check} {chunks : Chunks} {s t : Source}
    (h : readCheck check chunks s = .ok t) : t.bytes.length ≤ s.bytes.length := by
  simp only [readCheck, bind, Except.bind] at h
  split at h
  · simp at h
  · rename_i x hx
    have h1 := length_of_read hx
    split at h
    · simp at h
    · rename_i y hy
      have h2 := length_of_read hy
      split at h
      · simp at h
      · split at h
        · simp only [Except.ok.injEq] at h
          rw [← h]
          omega
        · simp at h

/-- Compares the chunks of a block with its header, and its data with the check behind it. -/
def finishBlock (check : Check) (header : BlockHeader) (chunks : Chunks) :
    Except Error (Record × Source) :=
  if header.uncompressedSize.any (· < chunks.data.length) then .error .uncompressedSize
  else if header.compressedSize.any (· < chunks.packedSize) then .error .compressedSize
  else do
    let s ← chunks.rest
    if header.uncompressedSize.any (chunks.data.length < ·) ||
        header.compressedSize.any (chunks.packedSize < ·) then .error .unexpectedEnd
    else
      let s ← readCheck check chunks s
      pure (⟨header.size + chunks.packedSize + check.size, chunks.data.length⟩, s)

theorem length_of_finishBlock {check : Check} {header : BlockHeader} {chunks : Chunks}
    {record : Record} {t : Source} (h : finishBlock check header chunks = .ok (record, t)) :
    ∃ s, chunks.rest = .ok s ∧ t.bytes.length ≤ s.bytes.length := by
  simp only [finishBlock, bind, Except.bind] at h
  split at h
  · simp at h
  · split at h
    · simp at h
    · split at h
      · simp at h
      · rename_i s hs
        split at h
        · simp at h
        · split at h
          · simp at h
          · rename_i u hu
            simp only [pure, Except.pure, Except.ok.injEq, Prod.mk.injEq] at h
            exact ⟨s, hs, h.2 ▸ length_of_readCheck hu⟩

end Xz
end I8086
