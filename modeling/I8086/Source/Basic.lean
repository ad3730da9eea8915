import I8086.Text.Numeral

/-!
# Sources

Where programs come from: a source delivers bytes and then either ends or fails. How a failure reads
is up to the source, and so is whether it passes on the end of another one that it reads from.
-/

set_option autoImplicit false

namespace I8086

/-- Why a source failed. -/
structure ReadError where
  message : String
  /-- Whether the reason is that something came to its end. -/
  isEnd : Bool
  /-- Whether it is, or the reason is, that something came to its end too early. -/
  isEarlyEnd : Bool
  deriving DecidableEq, Repr

/-- An end that came too early. -/
def ReadError.earlyEnd : ReadError := ⟨"unexpected EOF", false, true⟩

/-- Why there is no source to read from. -/
structure OpenError where
  message : String
  /-- Whether nothing has the name that was asked for. -/
  isMissing : Bool
  deriving DecidableEq, Repr

structure Source where
  bytes : List UInt8
  /-- What happens after the bytes: a failure, or the plain end. -/
  failure : Option ReadError
  deriving DecidableEq, Repr

/-- The bytes that a packed source starts with. -/
def packedMagic : List UInt8 := [0xfd, 0x37, 0x7a, 0x58, 0x5a, 0x00]

/-- Opens a packed source: as a source of what is packed, unless it fails right away. -/
abbrev Unpacker := Source → Except ReadError Source

namespace Source

/-- A source that ends after its bytes. -/
def ofBytes (bytes : List UInt8) : Source := ⟨bytes, none⟩

/-- The first `n` bytes and the rest, if there are that many. -/
def split? (s : Source) (n : Nat) : Option (List UInt8 × Source) :=
  if (s.bytes.take n).length = n then some (s.bytes.take n, { s with bytes := s.bytes.drop n })
  else none

theorem length_of_split? {s t : Source} {n : Nat} {front : List UInt8}
    (h : s.split? n = some (front, t)) : t.bytes.length + n = s.bytes.length := by
  unfold split? at h
  split at h
  · rename_i hn
    simp only [Option.some.injEq, Prod.mk.injEq] at h
    rw [← h.2]
    simp only [List.length_take, List.length_drop] at hn ⊢
    omega
  · simp at h

end Source
end I8086
