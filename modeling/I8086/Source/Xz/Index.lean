import I8086.Source.Xz.Basic

/-!
# The end of a stream

Behind its blocks a stream lists their sizes in an index, and the size of the index in a footer.
-/

set_option autoImplicit false

namespace I8086
namespace Xz

/-- `n` records of an index, with their bytes. -/
def readRecords : Nat → Source → Except Error (List Record × List UInt8 × Source)
  | 0, s => .ok ([], [], s)
  | n + 1, s => do
    let (unpaddedSize, bytes, s) ← readSize .indexUnpaddedSize s
    let (uncompressedSize, bytes', s) ← readSize .indexUncompressedSize s
    let (records, more, s) ← readRecords n s
    pure (⟨unpaddedSize, uncompressedSize⟩ :: records, bytes ++ bytes' ++ more, s)

theorem length_of_readRecords {n : Nat} {s t : Source} {records : List Record}
    {bytes : List UInt8} (h : readRecords n s = .ok (records, bytes, t)) :
    t.bytes.length ≤ s.bytes.length := by
  induction n generalizing s t records bytes with
  | zero =>
    simp only [readRecords, Except.ok.injEq, Prod.mk.injEq] at h
    exact h.2.2 ▸ Nat.le_refl _
  | succ n ih =>
    simp only [readRecords, bind, Except.bind] at h
    split at h
    · simp at h
    · rename_i x hx
      have h1 := length_of_readSize hx
      split at h
      · simp at h
      · rename_i y hy
        have h2 := length_of_readSize hy
        split at h
        · simp at h
        · rename_i z hz
          have h3 := ih hz
          simp only [pure, Except.pure, Except.ok.injEq, Prod.mk.injEq] at h
          rw [← h.2.2]
          omega

/-- The first block about which an index says otherwise; `block` counts those before. -/
def compareRecords (block : Nat) : List Record → List Record → Except Error Unit
  | unpacked :: rest, listed :: more =>
    if unpacked = listed then compareRecords (block + 1) rest more
    else .error (.indexRecord block unpacked listed)
  | _, _ => .ok ()

/-- The index behind its first byte, which has to list the given records; gives its size. -/
def readIndex (records : List Record) (s : Source) : Except Error (Nat × Source) := do
  let (count, bytes, s) ← readSize .indexCount s
  if count ≠ records.length then throw (.indexLength count records.length)
  let (found, more, s) ← readRecords records.length s
  let covered := 0 :: bytes ++ more
  let (pad, s) ← read s (padding covered.length)
  if pad.any (· != 0) then throw .indexPadding
  let (crc, s) ← read s 4
  if numberOf crc ≠ (Checksum.crc32 (covered ++ pad)).toNat then throw .indexChecksum
  compareRecords 0 records found
  pure (covered.length + pad.length + 4, s)

theorem length_of_readIndex {records : List Record} {n : Nat} {s t : Source}
    (h : readIndex records s = .ok (n, t)) : t.bytes.length ≤ s.bytes.length := by
  simp only [readIndex, bind, Except.bind] at h
  split at h
  · simp at h
  · rename_i x hx
    have h1 := length_of_readSize hx
    split at h
    · simp at h
    · split at h
      · simp at h
      · rename_i y hy
        have h2 := length_of_readRecords hy
        split at h
        · simp at h
        · rename_i z hz
          have h3 := length_of_read hz
          split at h
          · simp at h
          · split at h
            · simp at h
            · rename_i w hw
              have h4 := length_of_read hw
              split at h
              · simp at h
              · split at h
                · simp at h
                · simp only [pure, Except.pure, Except.ok.injEq, Prod.mk.injEq] at h
                  rw [← h.2]
                  omega

/-- The twelve bytes behind an index of `indexSize` bytes. -/
def parseFooter (check : Check) (indexSize : Nat) (bytes : List UInt8) : Except Error Unit := do
  let covered := (bytes.drop 4).take 6
  if bytes.drop 10 ≠ [0x59, 0x5a] then throw .footerMagic
  if numberOf (bytes.take 4) ≠ (Checksum.crc32 covered).toNat then throw .footerChecksum
  match covered.drop 4 with
  | [0, flags] =>
    match Check.ofByte? flags with
    | some found => if found ≠ check then throw .footerFlags
    | none => throw .invalidFlags
  | _ => throw .invalidFlags
  if (numberOf (covered.take 4) + 1) * 4 ≠ indexSize then throw .footerIndexSize

/-- The index and the footer of a stream. -/
def readTail (check : Check) (records : List Record) (s : Source) : Except Error Source := do
  let (indexSize, s) ← readIndex records s
  let (bytes, s) ← read s 12
  parseFooter check indexSize bytes
  pure s

theorem length_of_readTail {check : Check} {records : List Record} {s t : Source}
    (h : readTail check records s = .ok t) : t.bytes.length ≤ s.bytes.length := by
  simp only [readTail, bind, Except.bind] at h
  split at h
  · simp at h
  · rename_i x hx
    have h1 := length_of_readIndex hx
    split at h
    · simp at h
    · rename_i y hy
      have h2 := length_of_read hy
      split at h
      · simp at h
      · simp only [pure, Except.pure, Except.ok.injEq] at h
        rw [← h]
        omega

end Xz
end I8086
