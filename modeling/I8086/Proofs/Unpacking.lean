import I8086.Proofs.Loading
import I8086.Source.Xz.Stream

/-!
# Packed programs that break off

A container can end anywhere, for example because a file was not copied to its end.  An unpacker then
delivers what it could unpack, and fails because the end came too early.  Loading takes this failure
for the end of the program.

* `Xz.CutChunks`, `Xz.CutBlocks` and `Xz.CutStreams` are about containers of stored chunks that end
  inside the data of a chunk, with everything in front of that chunk as it should be: chunks, blocks
  with their checks, streams with their indexes, and padding between streams.  `Xz.EndsInChunk` is
  about all of it.
* `Xz.unpack_of_endsInChunk` unpacks such a container as far as it goes, by one induction for each
  level.
* `Image.load_accepts_cut_container` is about loading with any unpacker that does so, and
  `Image.load_misses_cut` names a container.
-/

set_option autoImplicit false

namespace I8086
namespace Xz

/-- Whether a chunk with this first byte is stored; the first one of a block has to clear the
dictionary. -/
def IsStored (first : Bool) (control : UInt8) : Prop :=
  control = 1 ∨ control = 2 ∧ first = false

/-- The number of bytes that the header of a stored chunk announces. -/
def storedSize (high low : UInt8) : Nat := 256 * high.toNat + low.toNat + 1

/-- Chunks on which the input ends, inside the data of the last one. -/
inductive CutChunks : Bool → Source → List UInt8 → Prop
  /-- The last chunk has fewer bytes than it announces. -/
  | last {first : Bool} {s : Source} {control high low : UInt8} {data : List UInt8}
    (hstored : IsStored first control) (hbytes : s.bytes = control :: high :: low :: data)
    (hend : s.failure = none) (hcut : data.length < storedSize high low) : CutChunks first s data
  /-- A whole chunk in front of others. -/
  | chunk {first : Bool} {s : Source} {control high low : UInt8} {data rest more : List UInt8}
    (hstored : IsStored first control)
    (hbytes : s.bytes = control :: high :: low :: (data ++ rest))
    (hwhole : data.length = storedSize high low)
    (hrest : CutChunks false { s with bytes := rest } more) : CutChunks first s (data ++ more)

theorem readChunks_stored {capacity : Nat} {first : Bool} {s : Source} {control high low : UInt8}
    {body : List UInt8} (hstored : IsStored first control)
    (hbytes : s.bytes = control :: high :: low :: body) :
    readChunks capacity first s =
      let size := storedSize high low
      let data := body.take size
      if data.length = size then
        let more := readChunks capacity false { s with bytes := body.drop size }
        ⟨data ++ more.data, 3 + size + more.packedSize, more.rest⟩
      else
        match s.failure with
        | none => ⟨data, 3 + data.length, .error .unexpectedEnd⟩
        | some e => ⟨wholeFillings capacity data, 3 + data.length, .error (.source e)⟩ := by
  have hsize : chunkHeaderSize? control = some 2 := by
    rcases hstored with rfl | ⟨rfl, -⟩ <;> rfl
  have herror : chunkError? first control [high, low] = none := by
    rcases hstored with rfl | ⟨rfl, rfl⟩
    · cases first <;> rfl
    · rfl
  have hne : control ≠ 0 := by
    rcases hstored with rfl | ⟨rfl, -⟩ <;> decide
  rw [readChunks]
  split
  · rename_i h
    cases hbytes.symm.trans h
  · rename_i h
    cases hbytes.symm.trans h
    exact absurd rfl hne
  · rename_i h
    cases hbytes.symm.trans h
    have htake : (high :: low :: body).take 2 = [high, low] := rfl
    have hdrop : (high :: low :: body).drop 2 = body := rfl
    have hnumber : numberOf [high, low].reverse + 1 = storedSize high low := by
      show low.toNat + 256 * (high.toNat + 256 * 0) + 1 = 256 * high.toNat + low.toNat + 1
      omega
    rw [hsize]
    dsimp only
    rw [htake, if_neg (show ¬ [high, low].length < 2 from Nat.lt_irrefl 2), hdrop, hnumber]
    generalize chunkError? first control [high, low] = error at herror ⊢
    subst herror
    rfl

theorem readChunks_of_cut {first : Bool} {s : Source} {data : List UInt8}
    (h : CutChunks first s data) (capacity : Nat) :
    readChunks capacity first s = ⟨data, s.bytes.length, .error .unexpectedEnd⟩ := by
  induction h with
  | @last first s control high low data hstored hbytes hend hcut =>
    have hall : data.take (storedSize high low) = data := List.take_of_length_le (Nat.le_of_lt hcut)
    rw [readChunks_stored hstored hbytes]
    dsimp only
    rw [hall, if_neg (Nat.ne_of_lt hcut), hend, hbytes]
    dsimp only
    rw [List.length_cons, List.length_cons, List.length_cons]
    congr 1
    omega
  | @chunk first s control high low data rest more hstored hbytes hwhole hrest ih =>
    have htake : (data ++ rest).take (storedSize high low) = data := hwhole ▸ List.take_left
    have hdrop : (data ++ rest).drop (storedSize high low) = rest := hwhole ▸ List.drop_left
    rw [readChunks_stored hstored hbytes]
    dsimp only
    rw [htake, if_pos hwhole, hdrop, ih, hbytes]
    dsimp only
    rw [List.length_cons, List.length_cons, List.length_cons, List.length_append]
    congr 1
    omega

/-! ## Blocks and streams -/

/-- A header that announces no less than a number of bytes unpacked so far, and no less than a number
of bytes they were unpacked from. -/
def BlockHeader.Admits (header : BlockHeader) (unpacked packed : Nat) : Prop :=
  header.uncompressedSize.any (· < unpacked) = false ∧
    header.compressedSize.any (· < packed) = false

theorem finishBlock_of_cut {check : Check} {header : BlockHeader} {data : List UInt8} {packed : Nat}
    (h : header.Admits data.length packed) :
    finishBlock check header ⟨data, packed, .error .unexpectedEnd⟩ = .error .unexpectedEnd := by
  rw [finishBlock, h.1, h.2]
  rfl

/-- Blocks on which the input ends, inside the data of a chunk of the last one. -/
inductive CutBlocks (check : Check) : Source → List UInt8 → Prop
  | last {s s' : Source} {size : UInt8} {rest data : List UInt8} {header : BlockHeader}
    (hsize : size ≠ 0) (hbytes : s.bytes = size :: rest)
    (hheader : readBlockHeader size { s with bytes := rest } = .ok (some header, s'))
    (hcut : CutChunks true s' data) (hadmits : header.Admits data.length s'.bytes.length) :
    CutBlocks check s data
  /-- A whole block in front of others. -/
  | block {s s' s'' : Source} {size : UInt8} {rest data : List UInt8} {header : BlockHeader}
    {record : Record} (hsize : size ≠ 0) (hbytes : s.bytes = size :: rest)
    (hheader : readBlockHeader size { s with bytes := rest } = .ok (some header, s'))
    (hwhole : finishBlock check header (readChunks header.dictionarySize true s') =
      .ok (record, s''))
    (hrest : CutBlocks check s'' data) :
    CutBlocks check s ((readChunks header.dictionarySize true s').data ++ data)

theorem readBlocks_of_header {check : Check} {s s' : Source} {size : UInt8} {rest : List UInt8}
    {header : BlockHeader} (hsize : size ≠ 0) (hbytes : s.bytes = size :: rest)
    (hheader : readBlockHeader size { s with bytes := rest } = .ok (some header, s'))
    (records : List Record) :
    readBlocks check records s =
      let chunks := readChunks header.dictionarySize true s'
      match finishBlock check header chunks with
      | .error e => ⟨chunks.data, .error e⟩
      | .ok (record, s'') =>
        let more := readBlocks check (records ++ [record]) s''
        ⟨chunks.data ++ more.data, more.rest⟩ := by
  rw [readBlocks]
  split
  · rename_i h
    cases hbytes.symm.trans h
  · rename_i h
    cases hbytes.symm.trans h
    exact absurd rfl hsize
  · rename_i h
    cases hbytes.symm.trans h
    split
    · rename_i hother
      cases hheader.symm.trans hother
    · rename_i hother
      cases hheader.symm.trans hother
    · rename_i hsame
      cases hheader.symm.trans hsame
      dsimp only
      split
      · rename_i hfinish
        rw [hfinish]
      · rename_i hfinish
        rw [hfinish]

theorem readBlocks_of_cut {check : Check} {s : Source} {data : List UInt8}
    (h : CutBlocks check s data) (records : List Record) :
    readBlocks check records s = ⟨data, .error .unexpectedEnd⟩ := by
  induction h generalizing records with
  | last hsize hbytes hheader hcut hadmits =>
    rw [readBlocks_of_header hsize hbytes hheader]
    dsimp only
    rw [readChunks_of_cut hcut, finishBlock_of_cut hadmits]
  | block hsize hbytes hheader hwhole _ ih =>
    rw [readBlocks_of_header hsize hbytes hheader]
    dsimp only
    rw [hwhole]
    dsimp only
    rw [ih]

/-- Streams on which the input ends, inside the data of a chunk of the last one.  The first stream
is open if its check is given. -/
inductive CutStreams : Option Check → Source → List UInt8 → Prop
  | last {check : Check} {s : Source} {data : List UInt8} (hcut : CutBlocks check s data) :
    CutStreams (some check) s data
  /-- A whole stream in front of others. -/
  | stream {check : Check} {s s' : Source} {data : List UInt8}
    (hwhole : (readBlocks check [] s).rest = .ok s') (hrest : CutStreams none s' data) :
    CutStreams (some check) s ((readBlocks check [] s).data ++ data)
  /-- Padding between streams. -/
  | padding {s : Source} {rest data : List UInt8} (hbytes : s.bytes = 0 :: 0 :: 0 :: 0 :: rest)
    (hrest : CutStreams none { s with bytes := rest } data) : CutStreams none s data
  /-- The header of a stream. -/
  | header {check : Check} {s s' : Source} {data : List UInt8}
    (hheader : readHeader s = .ok (check, s')) (hrest : CutStreams (some check) s' data) :
    CutStreams none s data

theorem read_eq_ok {s t : Source} {n : Nat} {front : List UInt8}
    (h : read s n = .ok (front, t)) : front = s.bytes.take n := by
  unfold read Source.split? at h
  split at h
  · rename_i hsplit
    split at hsplit
    · cases hsplit
      cases h
      rfl
    · cases hsplit
  · cases h

/-- A stream that can be opened starts with the magic bytes. -/
theorem magic_of_readHeader {s s' : Source} {check : Check}
    (h : readHeader s = .ok (check, s')) : s.bytes.take 6 = packedMagic := by
  simp only [readHeader, bind, Except.bind] at h
  split at h
  · cases h
  · rename_i x hx
    split at h
    · cases h
    · rename_i hparse
      rw [read_eq_ok hx, parseHeader] at hparse
      split at hparse
      · cases hparse
      · rename_i hmagic
        rw [List.take_take] at hmagic
        exact not_not.1 hmagic

theorem unpackFrom_of_cut {check : Option Check} {s : Source} {data : List UInt8}
    (h : CutStreams check s data) : unpackFrom check s = (data, some .unexpectedEnd) := by
  induction h with
  | last hcut =>
    have hblocks := readBlocks_of_cut hcut []
    rw [unpackFrom]
    dsimp only
    split
    · rename_i h
      rw [hblocks] at h ⊢
      cases h
      rfl
    · rename_i h
      rw [hblocks] at h
      cases h
  | stream hwhole _ ih =>
    rw [unpackFrom]
    dsimp only
    split
    · rename_i h
      cases hwhole.symm.trans h
    · rename_i h
      cases hwhole.symm.trans h
      rw [ih]
  | padding hbytes _ ih =>
    rw [unpackFrom]
    split
    · rename_i h
      cases hbytes.symm.trans h
    · rename_i h
      cases hbytes.symm.trans h
      exact ih
    · rename_i hother h
      cases hbytes.symm.trans h
      exact (hother _ rfl rfl).elim
  | header hheader _ ih =>
    have hmagic := magic_of_readHeader hheader
    rw [unpackFrom]
    split
    · rename_i h
      rw [h] at hmagic
      cases hmagic
    · rename_i h
      rw [h] at hmagic
      cases hmagic
    · split
      · rename_i h
        cases hheader.symm.trans h
      · rename_i h
        cases hheader.symm.trans h
        exact ih

/-- The input ends inside the data of a chunk of a container; `data` is what was unpacked by
then. -/
def EndsInChunk (s : Source) (data : List UInt8) : Prop :=
  ∃ check s', readHeader s = .ok (check, s') ∧ CutStreams (some check) s' data

theorem unpack_of_endsInChunk {s : Source} {data : List UInt8} (h : EndsInChunk s data) :
    unpack s = .ok ⟨data, some .earlyEnd⟩ := by
  obtain ⟨check, s', hheader, hstreams⟩ := h
  rw [unpack, hheader]
  dsimp only
  rw [unpackFrom_of_cut hstreams]
  rfl

/-- A container of seven bytes in chunks of three, three and one, cut off behind the second byte of
the second chunk. -/
def cutContainer : Source := .ofBytes
  [0xFD, 0x37, 0x7A, 0x58, 0x5A, 0x00, 0x00, 0x01, 0x69, 0x22, 0xDE, 0x36,
    0x02, 0x00, 0x21, 0x01, 0x16, 0x00, 0x00, 0x00, 0x74, 0x2F, 0xE5, 0xA3,
    0x01, 0x00, 0x02, 0x89, 0xD9, 0x88, 0x02, 0x00, 0x02, 0xE5, 0xF0]

theorem endsInChunk_cutContainer :
    EndsInChunk cutContainer [0x89, 0xD9, 0x88, 0xE5, 0xF0] := by
  have hheader : readHeader cutContainer = .ok (.crc32, .ofBytes (cutContainer.bytes.drop 12)) := by
    decide +kernel
  have hblock : readBlockHeader 2 (.ofBytes (cutContainer.bytes.drop 13)) =
      .ok (some ⟨12, none, none, 8388608⟩, .ofBytes (cutContainer.bytes.drop 24)) := by
    decide +kernel
  have hlast : CutChunks false (.ofBytes [0x02, 0x00, 0x02, 0xE5, 0xF0]) [0xE5, 0xF0] :=
    .last (.inr ⟨rfl, rfl⟩) rfl rfl (by decide)
  have hchunks : CutChunks true (.ofBytes (cutContainer.bytes.drop 24))
      ([0x89, 0xD9, 0x88] ++ [0xE5, 0xF0]) :=
    .chunk (.inl rfl) rfl rfl hlast
  have hbytes : (Source.ofBytes (cutContainer.bytes.drop 12)).bytes =
      2 :: cutContainer.bytes.drop 13 := rfl
  have hblocks : CutBlocks .crc32 (.ofBytes (cutContainer.bytes.drop 12))
      ([0x89, 0xD9, 0x88] ++ [0xE5, 0xF0]) :=
    .last (by decide) hbytes hblock hchunks ⟨rfl, rfl⟩
  exact ⟨_, _, hheader, .last hblocks⟩

end Xz

/-! ## Loading -/

namespace Image

/-- A packed program is loaded by placing what it is unpacked to. -/
theorem load_of_unpack (m : Image) {unpack : Unpacker} {s t : Source} {offset : UInt32}
    (hoffset : offset.toNat < imageSize) (hmagic : packedMagic <+: s.bytes)
    (hunpack : unpack s = .ok t) : m.load unpack s offset = m.place offset.toNat t := by
  have htake : s.bytes.take packedMagic.length = packedMagic :=
    (List.prefix_iff_eq_take.1 hmagic).symm
  have hhead : s.headFailure? = none :=
    Source.headFailure?_eq_none fun _ _ hlength => absurd hmagic.length_le (Nat.not_le.2 hlength)
  rw [load, if_neg (Nat.not_le.2 hoffset), hhead]
  dsimp only
  rw [if_pos htake, hunpack]

/-- **A packed program that breaks off is loaded as if it were complete.**  Let `endsInChunk` say of
an input that it ends inside the data of a chunk, and what can be unpacked by then.  Take any
unpacker that delivers these bytes and then fails because the end came too early.  If the bytes leave
room in the image, all of them are loaded and no error is reported: the result is that of copying
the bytes, and that of loading any input that is unpacked to them with nothing missing. -/
theorem load_accepts_cut_container (m : Image) {unpack : Unpacker}
    {endsInChunk : Source → List UInt8 → Prop}
    (hunpack : ∀ s data, endsInChunk s data →
      ∃ e, unpack s = .ok ⟨data, some e⟩ ∧ e.isEarlyEnd = true)
    {s : Source} {offset : UInt32} {data : List UInt8} (hoffset : offset.toNat < imageSize)
    (hmagic : packedMagic <+: s.bytes) (hcut : endsInChunk s data)
    (hroom : data.length < room offset.toNat) :
    let loaded := m.load unpack s offset
    loaded.count.toNat = data.length ∧ Copied m loaded.image offset.toNat data.length data ∧
      loaded.error = none ∧ m.copy offset data = .ok (loaded.count, loaded.image) ∧
      ∀ t, packedMagic <+: t.bytes → unpack t = .ok (.ofBytes data) →
        m.load unpack t offset = loaded := by
  intro loaded
  obtain ⟨e, hdata, hearly⟩ := hunpack s data hcut
  have hloaded : loaded = m.place offset.toNat ⟨data, some e⟩ := m.load_of_unpack hoffset hmagic hdata
  have hmin : min data.length (room offset.toNat) = data.length := Nat.min_eq_left (by omega)
  have hcount := m.toNat_count_place offset.toNat ⟨data, some e⟩
  have hcopied := m.copied_setRange offset.toNat data
  have herror : (m.place offset.toNat ⟨data, some e⟩).error = none := by
    refine error_place_eq_none fun failure hfailure => ?_
    cases hfailure
    rw [ReadError.endsProgram, hearly, Bool.or_true]
  rw [hmin] at hcount hcopied
  rw [hloaded]
  refine ⟨hcount, hcopied, herror, m.copy_eq_place hoffset ⟨data, some e⟩, fun t ht hwhole => ?_⟩
  rw [m.load_of_unpack hoffset ht hwhole, Loaded.mk.injEq]
  exact ⟨rfl, rfl, (error_place_eq_none fun _ hfailure => by cases hfailure).trans herror.symm⟩

/-- Five bytes of a program of seven are loaded, and nothing is reported. -/
theorem load_accepts_five_bytes_of_seven :
    let data : List UInt8 := [0x89, 0xD9, 0x88, 0xE5, 0xF0]
    let loaded := zero.load Xz.unpack Xz.cutContainer 0x100
    packedMagic <+: Xz.cutContainer.bytes ∧ Xz.EndsInChunk Xz.cutContainer data ∧
      data.length < room 0x100 ∧ loaded.count.toNat = 5 ∧
      loaded.image.get (.wrap 0x104) = 0xF0 ∧ loaded.error = none := by
  intro data loaded
  have hoffset : (0x100 : UInt32).toNat < imageSize := by decide
  have hmagic : packedMagic <+: Xz.cutContainer.bytes := by decide
  have hroom : data.length < room 0x100 := by decide
  have hunpack : ∀ s data, Xz.EndsInChunk s data →
      ∃ e, Xz.unpack s = .ok ⟨data, some e⟩ ∧ e.isEarlyEnd = true :=
    fun _ _ h => ⟨_, Xz.unpack_of_endsInChunk h, rfl⟩
  obtain ⟨hcount, hcopied, herror, -⟩ := zero.load_accepts_cut_container hunpack hoffset hmagic
    Xz.endsInChunk_cutContainer hroom
  exact ⟨hmagic, Xz.endsInChunk_cutContainer, hroom, hcount,
    (Option.some.inj (hcopied.placed 4 (by decide))).symm, herror⟩

/-- Not every input that ends inside the data of a chunk is reported. -/
theorem load_misses_cut :
    ¬ ∀ (unpack : Unpacker) (endsInChunk : Source → List UInt8 → Prop),
      (∀ s data, endsInChunk s data → unpack s = .ok ⟨data, some .earlyEnd⟩) →
      ∀ (m : Image) (s : Source) (offset : UInt32) (data : List UInt8),
        offset.toNat < imageSize → packedMagic <+: s.bytes → endsInChunk s data →
        data.length < room offset.toNat → (m.load unpack s offset).error.isSome = true := by
  intro h
  have hoffset : (0x100 : UInt32).toNat < imageSize := by decide
  have hmagic : packedMagic <+: Xz.cutContainer.bytes := by decide
  have hunpack := Xz.unpack_of_endsInChunk Xz.endsInChunk_cutContainer
  have herror := h Xz.unpack Xz.EndsInChunk (fun _ _ => Xz.unpack_of_endsInChunk) zero
    Xz.cutContainer 0x100 _ hoffset hmagic Xz.endsInChunk_cutContainer (by decide)
  rw [zero.load_of_unpack hoffset hmagic hunpack, error_place_eq_none] at herror
  · cases herror
  · intro e he
    cases he
    rfl

end Image
end I8086
