import I8086.Decode.Pending
import I8086.Encoding.Table

/-!
# Decoding one instruction

The formats of the instruction set are tried in order at a cursor. The first one that describes the
bytes gives the instruction, which takes the pending prefixes with it.
-/

set_option autoImplicit false

namespace I8086

/-- Why no instruction was found. -/
inductive DecodeFailure
  /-- No format describes the bytes. -/
  | unrecognized
  /-- A format describes the bytes that may be read, and needs more of them. -/
  | truncated
  deriving DecidableEq, Repr

def DecodeFailure.message : DecodeFailure → String
  | unrecognized => "unrecognized instruction"
  | truncated => "truncated instruction"

/-- A failure together with the place where it happened. -/
structure DecodeError where
  address : Address
  byte : UInt8
  cause : DecodeFailure
  deriving DecidableEq, Repr

def DecodeError.message (e : DecodeError) : String :=
  "failed to decode the instruction at 0x" ++ Text.hexPadded 5 e.address.toNat ++ " (" ++
    Text.binaryPadded 8 e.byte.toNat ++ "): " ++ e.cause.message

/-- The error for a failure at `cursor`. -/
def DecodeError.ofCursor (image : Image) (cursor : Cursor) (cause : DecodeFailure) : DecodeError :=
  ⟨cursor.address, image.get cursor.address, cause⟩

/-- The first format of a list that gives an instruction. `cut` says whether a format before the
list was truncated. -/
def firstMatch (image : Image) (cursor : Cursor) (limit : UInt32) (cut : Bool) :
    List Format → Except DecodeFailure Instruction
  | [] => .error (if cut then .truncated else .unrecognized)
  | format :: rest =>
    match format.attempt image cursor limit with
    | .ok i => .ok i
    | .error .truncated => firstMatch image cursor limit true rest
    | .error _ => firstMatch image cursor limit cut rest

/-- A decoded instruction, the cursor behind it and the prefixes that wait after it. -/
structure Decoded where
  instruction : Instruction
  cursor : Cursor
  pending : Pending
  deriving DecidableEq, Repr

/-- Decodes with a list of formats, reading no more than `limit` bytes. -/
def decodeWith (formats : List Format) (pending : Pending) (image : Image) (cursor : Cursor)
    (limit : UInt32) : Except DecodeFailure Decoded :=
  match firstMatch image cursor limit false formats with
  | .error cause => .error cause
  | .ok found =>
    let i := pending.attach found
    .ok ⟨i, cursor.advance i.size, pending.after i⟩

/-- Decodes the instruction at a cursor within `limit` bytes. -/
def decodeWithin (pending : Pending) (image : Image) (cursor : Cursor) (limit : UInt32) :
    Except DecodeFailure Decoded :=
  decodeWith Table.formats pending image cursor limit

/-- Decodes the instruction at a cursor. -/
def decodeOne (pending : Pending) (image : Image) (cursor : Cursor) :
    Except DecodeFailure Decoded :=
  decodeWithin pending image cursor 1048576

/-! ## The size of a decoded instruction -/

theorem firstMatch_eq_ok {image : Image} {cursor : Cursor} {limit : UInt32} {cut : Bool}
    {formats : List Format} {i : Instruction}
    (h : firstMatch image cursor limit cut formats = .ok i) :
    ∃ format ∈ formats, format.attempt image cursor limit = .ok i := by
  induction formats generalizing cut with
  | nil => simp [firstMatch] at h
  | cons format rest ih =>
    simp only [firstMatch] at h
    split at h
    · rename_i j hj
      simp only [Except.ok.injEq] at h
      exact ⟨format, by simp, h ▸ hj⟩
    · obtain ⟨g, hg, ha⟩ := ih h
      exact ⟨g, List.mem_cons_of_mem _ hg, ha⟩
    · obtain ⟨g, hg, ha⟩ := ih h
      exact ⟨g, List.mem_cons_of_mem _ hg, ha⟩

/-- A decoded instruction has at least one byte, and no more than the limit allows. -/
theorem size_of_decodeWithin {pending : Pending} {image : Image} {cursor : Cursor}
    {limit : UInt32} {x : Decoded} (h : decodeWithin pending image cursor limit = .ok x) :
    0 < x.instruction.size.toNat ∧ x.instruction.size.toNat ≤ limit.toNat := by
  unfold decodeWithin decodeWith at h
  split at h
  · simp at h
  · rename_i found hf
    obtain ⟨format, hm, ha⟩ := firstMatch_eq_ok hf
    simp only [Except.ok.injEq] at h
    subst h
    have hsize : (pending.attach found).size = found.size := rfl
    rw [hsize]
    exact ⟨size_pos_of_attempt (Table.readsFirst_of_mem hm) ha, size_le_of_attempt ha⟩

end I8086
