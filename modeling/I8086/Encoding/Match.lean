import I8086.Encoding.Fields

/-!
# Laying a format over the stream

`Format.attempt` reads the bytes at a cursor the way a format says and gives the instruction they
encode. Main statements: an instruction found within a limit of `limit` bytes has at most that many
(`size_le_of_attempt`), and at least one if the format starts with bits of the stream
(`size_pos_of_attempt`).
-/

set_option autoImplicit false

namespace I8086

/-- `v` moved `n` places up; nothing is left of it from 32 places on. -/
def shiftUp (v : UInt32) (n : UInt8) : UInt32 :=
  if n < 32 then v <<< n.toUInt32 else 0

/-- A read of the stream on behalf of a format: a field that does not fit into the rest of its byte
is a mismatch. -/
@[inline] def liftRead {α : Type} : Except BitError α × BitReader → Except Miss (α × BitReader)
  | (.ok v, r) => .ok (v, r)
  | (.error .underrun, _) => .error .mismatch
  | (.error .truncated, _) => .error .truncated
  | (.error (.tooWide width), _) => .error (.fault (.fieldTooWide width))

/-- The value of a field before it is shifted. -/
@[inline] def Field.read (field : Field) (r : BitReader) : Except Miss (UInt32 × BitReader) :=
  if field.bits = 0 then .ok (field.value, r) else liftRead (r.take field.bits)

/-- Reads fields one after the other and collects what they contribute. -/
def readFields : List Field → BitReader → Except Miss (Fields × BitReader)
  | [], r => .ok ([], r)
  | field :: rest, r => do
    let (value, r) ← field.read r
    if field.usage = .literal then
      if value = field.value then readFields rest r else .error .mismatch
    else if field.usage.isNamed then
      let (fields, r) ← readFields rest r
      pure ((field.usage, shiftUp value field.shift) :: fields, r)
    else .error (.fault .unknownCode)

/-- The displacement after the bit fields; without one, what the fields contribute to it. -/
def readDisp (f : Fields) (r : BitReader) : Except Miss (UInt32 × BitReader) :=
  if f.hasDisp then liftRead (r.value f.dispIsWide !f.dispIsWide) else .ok (f.value .disp, r)

/-- The data after the displacement; without any, what the fields contribute to it. -/
def readData (f : Fields) (r : BitReader) : Except Miss (UInt32 × BitReader) :=
  if f.hasData then liftRead (r.value f.dataIsWide (f.flag .s)) else .ok (f.value .data, r)

/-- The instruction that the bytes at `cursor` encode in this format. No more than `limit` bytes
are read. -/
def Format.attempt (format : Format) (image : Image) (cursor : Cursor) (limit : UInt32) :
    Except Miss Instruction := do
  let (fields, r) ← readFields format.fields (BitReader.start image cursor limit)
  let (disp, r) ← readDisp fields r
  let (data, r) ← readData fields r
  let operands ← fields.operands disp data r.consumed
  pure ⟨cursor.address.toWord, r.consumed, format.operation, fields.modifiers, operands⟩

/-- Whether the first field takes bits from the stream. -/
def Format.readsFirst (format : Format) : Bool :=
  match format.fields with
  | [] => false
  | field :: _ => field.bits != 0

/-! ## The size of an instruction -/

section Size

open BitReader

theorem follows_liftRead {α : Type} {r : BitReader} {p : Except BitError α × BitReader}
    (hp : Follows r p.2) {v : α} {r' : BitReader} (h : liftRead p = .ok (v, r')) :
    Follows r r' := by
  obtain ⟨x, r₁⟩ := p
  cases x with
  | ok w =>
    simp only [liftRead, Except.ok.injEq, Prod.mk.injEq] at h
    exact h.2 ▸ hp
  | error e => cases e <;> simp [liftRead] at h

theorem Field.follows_read {field : Field} {r r' : BitReader} {v : UInt32}
    (h : field.read r = .ok (v, r')) : Follows r r' := by
  unfold Field.read at h
  split at h
  · simp only [Except.ok.injEq, Prod.mk.injEq] at h
    exact h.2 ▸ Follows.refl r
  · exact follows_liftRead (follows_take r field.bits) h

theorem follows_readFields {fields : List Field} {r r' : BitReader} {f : Fields}
    (h : readFields fields r = .ok (f, r')) : Follows r r' := by
  induction fields generalizing r f with
  | nil =>
    simp only [readFields, Except.ok.injEq, Prod.mk.injEq] at h
    exact h.2 ▸ Follows.refl r
  | cons field rest ih =>
    simp only [readFields, bind, Except.bind] at h
    split at h
    · simp at h
    · rename_i p hp
      obtain ⟨v, r₁⟩ := p
      have h1 := Field.follows_read hp
      simp only at h
      split at h
      · split at h
        · exact h1.trans (ih h)
        · simp at h
      · split at h
        · split at h
          · simp at h
          · rename_i q hq
            obtain ⟨g, r₂⟩ := q
            simp only [pure, Except.pure, Except.ok.injEq, Prod.mk.injEq] at h
            exact h1.trans (ih (h.2 ▸ hq))
        · simp at h

theorem follows_readDisp {f : Fields} {r r' : BitReader} {v : UInt32}
    (h : readDisp f r = .ok (v, r')) : Follows r r' := by
  unfold readDisp at h
  split at h
  · exact follows_liftRead (follows_value r _ _) h
  · simp only [Except.ok.injEq, Prod.mk.injEq] at h
    exact h.2 ▸ Follows.refl r

theorem follows_readData {f : Fields} {r r' : BitReader} {v : UInt32}
    (h : readData f r = .ok (v, r')) : Follows r r' := by
  unfold readData at h
  split at h
  · exact follows_liftRead (follows_value r _ _) h
  · simp only [Except.ok.injEq, Prod.mk.injEq] at h
    exact h.2 ▸ Follows.refl r

/-- The readers that a successful attempt goes through. -/
theorem Format.attempt_eq_ok {format : Format} {image : Image} {cursor : Cursor} {limit : UInt32}
    {i : Instruction} (h : format.attempt image cursor limit = .ok i) :
    ∃ f r₁ disp r₂ data r₃ ops,
      readFields format.fields (BitReader.start image cursor limit) = .ok (f, r₁) ∧
      readDisp f r₁ = .ok (disp, r₂) ∧ readData f r₂ = .ok (data, r₃) ∧
      f.operands disp data r₃.consumed = .ok ops ∧
      i = ⟨cursor.address.toWord, r₃.consumed, format.operation, f.modifiers, ops⟩ := by
  simp only [Format.attempt, bind, Except.bind] at h
  split at h
  · simp at h
  · rename_i p hp
    obtain ⟨f, r₁⟩ := p
    simp only at h
    split at h
    · simp at h
    · rename_i q hq
      obtain ⟨disp, r₂⟩ := q
      simp only at h
      split at h
      · simp at h
      · rename_i s hs
        obtain ⟨data, r₃⟩ := s
        simp only at h
        split at h
        · simp at h
        · rename_i ops ho
          simp only [pure, Except.pure, Except.ok.injEq] at h
          exact ⟨f, r₁, disp, r₂, data, r₃, ops, hp, hq, hs, ho, h.symm⟩

/-- What a reader has consumed when it started with a limit and nothing consumed. -/
theorem toNat_consumed_of_follows {image : Image} {cursor : Cursor} {limit : UInt32}
    {r : BitReader} (h : Follows (BitReader.start image cursor limit) r) :
    r.consumed.toNat = limit.toNat - r.remaining.toNat := by
  have hs := h.sum_eq
  have hr := h.remaining_le
  simp only [BitReader.start, UInt32.zero_add] at hs hr
  have h3 : r.consumed = limit - r.remaining := by rw [← hs]; simp
  rw [h3, UInt32.toNat_sub_of_le _ _ (by rw [UInt32.le_iff_toNat_le]; exact hr)]

theorem size_le_of_attempt {format : Format} {image : Image} {cursor : Cursor} {limit : UInt32}
    {i : Instruction} (h : format.attempt image cursor limit = .ok i) :
    i.size.toNat ≤ limit.toNat := by
  obtain ⟨f, r₁, disp, r₂, data, r₃, ops, h1, h2, h3, _, rfl⟩ := Format.attempt_eq_ok h
  have hf := ((follows_readFields h1).trans (follows_readDisp h2)).trans (follows_readData h3)
  rw [toNat_consumed_of_follows hf]
  omega

theorem remaining_readFields {field : Field} {rest : List Field} {r r' : BitReader} {f : Fields}
    (hb : field.bits ≠ 0) (hp : r.pendingCount = 0)
    (h : readFields (field :: rest) r = .ok (f, r')) :
    r'.remaining.toNat < r.remaining.toNat := by
  simp only [readFields, bind, Except.bind] at h
  split at h
  · simp at h
  · rename_i p hr
    obtain ⟨v, r₁⟩ := p
    have h1 : r₁.remaining.toNat < r.remaining.toNat := by
      rw [Field.read, if_neg hb] at hr
      rcases ht : r.take field.bits with ⟨x, r₂⟩
      rw [ht] at hr
      cases x with
      | ok w =>
        simp only [liftRead, Except.ok.injEq, Prod.mk.injEq] at hr
        exact hr.2 ▸ remaining_take hb hp ht
      | error e => cases e <;> simp [liftRead] at hr
    simp only at h
    split at h
    · split at h
      · exact Nat.lt_of_le_of_lt (follows_readFields h).remaining_le h1
      · simp at h
    · split at h
      · split at h
        · simp at h
        · rename_i q hq
          obtain ⟨g, r₂⟩ := q
          simp only [pure, Except.pure, Except.ok.injEq, Prod.mk.injEq] at h
          exact Nat.lt_of_le_of_lt (h.2 ▸ (follows_readFields hq).remaining_le) h1
      · simp at h

theorem size_pos_of_attempt {format : Format} {image : Image} {cursor : Cursor} {limit : UInt32}
    {i : Instruction} (hf : format.readsFirst = true)
    (h : format.attempt image cursor limit = .ok i) : 0 < i.size.toNat := by
  obtain ⟨f, r₁, disp, r₂, data, r₃, ops, h1, h2, h3, _, rfl⟩ := Format.attempt_eq_ok h
  have hall := ((follows_readFields h1).trans (follows_readDisp h2)).trans (follows_readData h3)
  have hle := ((follows_readDisp h2).trans (follows_readData h3)).remaining_le
  unfold Format.readsFirst at hf
  cases hfields : format.fields with
  | nil => simp [hfields] at hf
  | cons field rest =>
    rw [hfields] at hf h1
    have hlt := remaining_readFields (by simpa using hf) rfl h1
    rw [toNat_consumed_of_follows hall]
    simp only [BitReader.start] at hlt
    omega

end Size
end I8086
