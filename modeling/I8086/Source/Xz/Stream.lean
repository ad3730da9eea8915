import I8086.Source.Xz.Block
import I8086.Source.Xz.Index

/-!
# Unpacking

The data of all streams of a container, up to the place where it ends, breaks off or turns out to be
damaged, together with the reason.
-/

set_option autoImplicit false

namespace I8086
namespace Xz

/-- What was unpacked, and the rest of the input or the reason why nothing more was. -/
structure Unpacked where
  data : List UInt8
  rest : Except Error Source

/-- Unpacks the blocks of a stream and reads what follows them, which is nothing if the header of a
block ends the stream. -/
def readBlocks (check : Check) (records : List Record) (s : Source) : Unpacked :=
  match _ : s.bytes with
  | [] => ⟨[], .error (endOf s)⟩
  | 0 :: rest => ⟨[], readTail check records { s with bytes := rest }⟩
  | size :: rest =>
    match _ : readBlockHeader size { s with bytes := rest } with
    | .error e => ⟨[], .error e⟩
    | .ok (none, s') => ⟨[], .ok s'⟩
    | .ok (some header, s') =>
      let chunks := readChunks header.dictionarySize true s'
      match _ : finishBlock check header chunks with
      | .error e => ⟨chunks.data, .error e⟩
      | .ok (record, s'') =>
        let more := readBlocks check (records ++ [record]) s''
        ⟨chunks.data ++ more.data, more.rest⟩
termination_by s.bytes.length
decreasing_by
  rename_i hs hh hf
  obtain ⟨t, ht, hle⟩ := length_of_finishBlock hf
  have h1 := length_of_readChunks ht
  have h2 := length_of_readBlockHeader hh
  rw [hs]
  simp only [List.length_cons] at h2 ⊢
  omega

theorem length_of_readBlocks {check : Check} {records : List Record} {s t : Source}
    (h : (readBlocks check records s).rest = .ok t) : t.bytes.length ≤ s.bytes.length := by
  fun_induction readBlocks check records s with
  | case1 => simp at h
  | case2 =>
    rename_i hs
    have := length_of_readTail h
    rw [hs]
    simp only [List.length_cons] at this ⊢
    omega
  | case3 => simp at h
  | case4 =>
    rename_i hs _ hh
    have := length_of_readBlockHeader hh
    simp only [Except.ok.injEq] at h
    rw [← h, hs]
    simp only [List.length_cons] at this ⊢
    omega
  | case5 => simp at h
  | case6 =>
    rename_i hs _ _ hh _ _ _ hf _ ih
    obtain ⟨u, hu, hle⟩ := length_of_finishBlock hf
    have h1 := length_of_readChunks hu
    have h2 := length_of_readBlockHeader hh
    have h3 := ih h
    rw [hs]
    simp only [List.length_cons] at h2 ⊢
    omega

/-- Unpacks the blocks of a stream that was opened, and all streams behind it. Between streams and
behind the last one there may be padding, four zero bytes at a time. -/
def unpackFrom (check : Option Check) (s : Source) : List UInt8 × Option Error :=
  match check with
  | some check =>
    let blocks := readBlocks check [] s
    match _ : blocks.rest with
    | .error e => (blocks.data, some e)
    | .ok rest =>
      let (data, e) := unpackFrom none rest
      (blocks.data ++ data, e)
  | none =>
    match _ : s.bytes with
    | [] => ([], s.failure.map .source)
    | 0 :: 0 :: 0 :: 0 :: rest => unpackFrom none { s with bytes := rest }
    | _ :: _ =>
      match _ : readHeader s with
      | .error e => ([], some e)
      | .ok (check, s) => unpackFrom (some check) s
termination_by (s.bytes.length, if check.isSome then 1 else 0)
decreasing_by
  · rename_i hr
    have h := length_of_readBlocks hr
    rcases Nat.lt_or_eq_of_le h with h | h
    · exact Prod.Lex.left _ _ h
    · rw [h]; exact Prod.Lex.right _ (by simp)
  · rename_i hs
    exact Prod.Lex.left _ _ (by rw [hs]; simp only [List.length_cons]; omega)
  · rename_i hh
    have h := length_of_readHeader hh
    exact Prod.Lex.left _ _ (by omega)

/-- Opens a container of stored chunks as a source of their data. -/
def unpack : Unpacker := fun s =>
  match readHeader s with
  | .error e => .error e.toReadError
  | .ok (check, s) =>
    let (data, e) := unpackFrom (some check) s
    .ok ⟨data, e.map Error.toReadError⟩

end Xz
end I8086
