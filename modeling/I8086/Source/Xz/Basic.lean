import I8086.Source.Basic
import I8086.Source.Checksum
import I8086.Source.Sha256

/-!
# The container of compressed programs

The `xz` container holds streams, each with a header, blocks of data, an index and a footer. This
file has what can be wrong with one, the numbers it is built from, and the header of a stream. Only
containers of stored chunks are unpacked; nothing but the outermost program depends on them.
-/

set_option autoImplicit false

namespace I8086
namespace Xz

/-- What the index repeats of a block: its size without padding, and the size of its data. -/
structure Record where
  unpaddedSize : Nat
  uncompressedSize : Nat
  deriving DecidableEq, Repr

def Record.render (r : Record) : String :=
  "\x7b" ++ Text.decimal r.unpaddedSize ++ " " ++ Text.decimal r.uncompressedSize ++ "\x7d"

/-- What is wrong with a container. -/
inductive Error
  /-- The input ends inside of the container. -/
  | unexpectedEnd
  /-- The input fails. -/
  | source (e : ReadError)
  | headerMagic
  | headerChecksum
  | invalidFlags
  | blockHeaderChecksum
  | reservedBlockFlags
  /-- A block header gives a size of more than 63 bits. -/
  | blockSize
  | filterCount
  /-- A filter that nobody may use. -/
  | reservedFilter
  /-- A filter other than the one for stored chunks. -/
  | filter
  | filterSize
  | dictionarySize
  | blockHeaderPadding
  | chunkByte
  /-- A packed chunk with properties that do not exist. -/
  | chunkProperties
  | chunkOrder
  /-- A packed chunk, of which nothing can be unpacked. -/
  | packedChunk
  | uncompressedSize
  | compressedSize
  | blockPadding
  | blockChecksum
  /-- The index counts more blocks than 63 bits can say. -/
  | indexCount
  | indexLength (found expected : Nat)
  /-- The index gives a size without padding of more than 63 bits. -/
  | indexUnpaddedSize
  /-- The index gives a size of data of more than 63 bits. -/
  | indexUncompressedSize
  /-- The index says otherwise about a block. -/
  | indexRecord (block : Nat) (unpacked listed : Record)
  | numberTooLong
  | indexPadding
  | indexChecksum
  | footerMagic
  | footerChecksum
  | footerFlags
  | footerIndexSize
  deriving DecidableEq, Repr

def Error.message : Error → String
  | unexpectedEnd => ReadError.earlyEnd.message
  | source e => e.message
  | headerMagic => "xz: invalid header magic bytes"
  | headerChecksum => "xz: invalid checksum for file header"
  | invalidFlags => "xz: invalid flags"
  | blockHeaderChecksum => "xz: checksum error for block header"
  | reservedBlockFlags => "xz: reserved block header flags set"
  | blockSize => "xz: size overflow in block header"
  | filterCount => "xz: unsupported filter count"
  | reservedFilter => "xz: reserved filter id in block stream header"
  | filter => "xz: invalid filter id"
  | filterSize => "xz: wrong LZMA2 filter size"
  | dictionarySize => "xz: wrong LZMA2 dictionary size property"
  | blockHeaderPadding => "xz: padding (4 zero bytes) encountered"
  | chunkByte => "lzma: unsupported chunk header byte"
  | chunkProperties => "lzma: invalid properties code"
  | chunkOrder => "lzma: unexpected chunk type"
  | packedChunk => "lzma: unsupported packed chunk"
  | uncompressedSize => "xz: wrong uncompressed size for block"
  | compressedSize => "xz: wrong compressed size for block"
  | blockPadding => "xz: non-zero block padding"
  | blockChecksum => "xz: checksum error for block"
  | indexCount => "xz: record number overflow"
  | indexLength found expected =>
    "xz: index length is " ++ Text.decimal found ++ "; want " ++ Text.decimal expected
  | indexUnpaddedSize => "xz: unpadded size negative"
  | indexUncompressedSize => "xz: uncompressed size negative"
  | indexRecord block unpacked listed =>
    "xz: record " ++ Text.decimal block ++ " is " ++ unpacked.render ++ "; want " ++ listed.render
  | numberTooLong => "xz: uvarint overflows 64-bit unsigned integer"
  | indexPadding => "xz: non-zero byte in index padding"
  | indexChecksum => "xz: wrong checksum for index"
  | footerMagic => "xz: footer magic invalid"
  | footerChecksum => "xz: footer checksum error"
  | footerFlags => "xz: footer flags incorrect"
  | footerIndexSize => "xz: index size in footer wrong"

/-- The failure of a source that reads from the container. -/
def Error.toReadError : Error → ReadError
  | unexpectedEnd => .earlyEnd
  | source e => e
  | e => ⟨e.message, false, false⟩

/-- The number of little endian bytes. -/
def numberOf (bytes : List UInt8) : Nat :=
  bytes.foldr (fun b acc => b.toNat + 256 * acc) 0

/-- How many bytes are missing to a multiple of four. -/
def padding (n : Nat) : Nat := (4 - n % 4) % 4

/-! ## Reading -/

/-- The reason for a source to have no more bytes. -/
def endOf (s : Source) : Error :=
  match s.failure with
  | none => .unexpectedEnd
  | some e => .source e

/-- The next `n` bytes. -/
def read (s : Source) (n : Nat) : Except Error (List UInt8 × Source) :=
  match s.split? n with
  | some (front, rest) => .ok (front, rest)
  | none => .error (endOf s)

theorem length_of_read {s t : Source} {n : Nat} {front : List UInt8}
    (h : read s n = .ok (front, t)) : t.bytes.length + n = s.bytes.length := by
  unfold read at h
  split at h
  · rename_i hs
    simp only [Except.ok.injEq, Prod.mk.injEq] at h
    rw [← h.2]
    exact Source.length_of_split? hs
  · simp at h

/-! ## Numbers

A number has seven bits in each byte, the lowest first, and the high bit in every byte but its
last. -/

/-- The bytes of the number at the front and the bytes behind it; `none` if they end before the
number does. -/
def splitNumber? (bytes : List UInt8) : Option (List UInt8 × List UInt8) :=
  match bytes.dropWhile (0x80 ≤ ·) with
  | [] => none
  | last :: rest => some (bytes.takeWhile (0x80 ≤ ·) ++ [last], rest)

theorem append_of_splitNumber? {bytes digits rest : List UInt8}
    (h : splitNumber? bytes = some (digits, rest)) : digits ++ rest = bytes := by
  unfold splitNumber? at h
  split at h
  · simp at h
  · rename_i hs
    simp only [Option.some.injEq, Prod.mk.injEq] at h
    rw [← h.1, ← h.2, List.append_assoc, List.singleton_append, ← hs,
      List.takeWhile_append_dropWhile]

/-- The value of a number, which has to fit 64 bits. -/
def parseNumber (digits : List UInt8) : Except Error Nat :=
  if 10 < digits.length || (digits.length == 10 && 1 < digits.getLastD 0) then
    .error .numberTooLong
  else .ok (digits.foldr (fun b acc => (b &&& 0x7f).toNat + 128 * acc) 0)

/-- The value of a number that has to fit 63 bits; otherwise it is `tooLarge`. -/
def parseSize (tooLarge : Error) (digits : List UInt8) : Except Error Nat := do
  let n ← parseNumber digits
  if 0x8000000000000000 ≤ n then throw tooLarge
  pure n

/-- A number that has to fit 63 bits, with its bytes. -/
def readSize (tooLarge : Error) (s : Source) : Except Error (Nat × List UInt8 × Source) :=
  match splitNumber? s.bytes with
  | none => .error (endOf s)
  | some (digits, rest) => do
    let n ← parseSize tooLarge digits
    pure (n, digits, { s with bytes := rest })

theorem length_of_readSize {tooLarge : Error} {n : Nat} {s t : Source} {digits : List UInt8}
    (h : readSize tooLarge s = .ok (n, digits, t)) : t.bytes.length ≤ s.bytes.length := by
  unfold readSize at h
  split at h
  · simp at h
  · rename_i hs
    simp only [bind, Except.bind] at h
    split at h
    · simp at h
    · simp only [pure, Except.pure, Except.ok.injEq, Prod.mk.injEq] at h
      rw [← h.2.2, ← append_of_splitNumber? hs]
      simp only [List.length_append]
      omega

/-! ## The stream header -/

/-- The check that follows the data of a block. -/
inductive Check
  | none | crc32 | crc64 | sha256
  deriving DecidableEq, Repr

namespace Check

def ofByte? : UInt8 → Option Check
  | 0 => some none
  | 1 => some crc32
  | 4 => some crc64
  | 10 => some sha256
  | _ => Option.none

/-- The number of bytes of a check. -/
def size : Check → Nat
  | none => 0
  | crc32 => 4
  | crc64 => 8
  | sha256 => 32

/-- Whether `bytes` are the check of `data`. -/
def holds (c : Check) (data bytes : List UInt8) : Bool :=
  match c with
  | none => true
  | crc32 => numberOf bytes == (Checksum.crc32 data).toNat
  | crc64 => numberOf bytes == (Checksum.crc64 data).toNat
  | sha256 => bytes == Sha256.digest data

end Check

/-- The twelve bytes in front of a stream. -/
def parseHeader (bytes : List UInt8) : Except Error Check :=
  let flags := (bytes.drop 6).take 2
  if bytes.take 6 ≠ packedMagic then .error .headerMagic
  else if numberOf (bytes.drop 8) ≠ (Checksum.crc32 flags).toNat then .error .headerChecksum
  else
    match flags with
    | [0, check] =>
      match Check.ofByte? check with
      | some check => .ok check
      | none => .error .invalidFlags
    | _ => .error .invalidFlags

/-- Opens a stream. -/
def readHeader (s : Source) : Except Error (Check × Source) := do
  let (bytes, s) ← read s 12
  let check ← parseHeader bytes
  pure (check, s)

theorem length_of_readHeader {s t : Source} {check : Check}
    (h : readHeader s = .ok (check, t)) : t.bytes.length + 12 = s.bytes.length := by
  simp only [readHeader, bind, Except.bind] at h
  split at h
  · simp at h
  · rename_i x hx
    have h1 := length_of_read hx
    split at h
    · simp at h
    · simp only [pure, Except.pure, Except.ok.injEq, Prod.mk.injEq] at h
      rw [← h.2]
      omega

end Xz
end I8086
