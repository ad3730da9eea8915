import I8086.Proofs.Coverage

/-!
# The bits that a reader hands out

A bit reader is called in any order: for the bits of a field, for a whole byte and for a number of
one or two bytes.  Its state has to stay in step with the stream through all of that.

* `BitReader.Took` lists what asking for a field can do, and `BitReader.took` says that there is
  nothing else.
* `BitReader.follows_after` and `BitReader.pendingCount_after` are what any calls keep, and
  `BitReader.call_of_error` is what a call that fails leaves behind.
* `BitReader.handedOut_append` compares bits: what fields were handed out, and what is pending still,
  are the bits of the bytes that were fetched.
-/

set_option autoImplicit false

namespace I8086

/-! ## Numbers as bits -/

/-- The low `width` bits of a number, the most significant one first. -/
def bitsOf (n width : Nat) : List Bool :=
  (List.range width).map fun k => n.testBit (width - 1 - k)

theorem bitsOf_mod (n width : Nat) : bitsOf (n % 2 ^ width) width = bitsOf n width := by
  refine List.map_congr_left fun k hk => ?_
  have hlt : width - 1 - k < width := by
    rw [List.mem_range] at hk
    omega
  rw [Nat.testBit_mod_two_pow, decide_eq_true hlt, Bool.true_and]

theorem bitsOf_add (n high low : Nat) :
    bitsOf n (high + low) = bitsOf (n / 2 ^ low) high ++ bitsOf n low := by
  rw [bitsOf, List.range_add, List.map_append, List.map_map]
  refine congrArg₂ (· ++ ·) (List.map_congr_left fun k hk => ?_)
    (List.map_congr_left fun k _ => ?_)
  · rw [List.mem_range] at hk
    rw [Nat.testBit_div_two_pow]
    congr 1
    omega
  · rw [Function.comp]
    congr 1
    omega

/-- The bits of some bytes. -/
def bitsOfBytes (bytes : List UInt8) : List Bool :=
  bytes.flatMap fun b => bitsOf b.toNat 8

theorem bitsOfBytes_append (bytes more : List UInt8) :
    bitsOfBytes (bytes ++ more) = bitsOfBytes bytes ++ bitsOfBytes more :=
  List.flatMap_append

namespace BitReader

/-! ## Calls -/

/-- How many bits a field can have. -/
abbrev Width := { width : UInt8 // width ≤ 8 }

inductive Call
  /-- Asks for a field. -/
  | take (width : Width)
  /-- Asks for a byte. -/
  | next
  /-- Asks for a number of one or two bytes. -/
  | value (wide signExtended : Bool)

/-- What a call answers, and the reader that it leaves. -/
def call (r : BitReader) : Call → Except BitError UInt32 × BitReader
  | .take width => r.take width
  | .next => (r.next.1.map UInt8.toUInt32, r.next.2)
  | .value wide signExtended => r.value wide signExtended

/-- The reader after some calls. -/
def after (r : BitReader) (calls : List Call) : BitReader :=
  calls.foldl (fun r c => (r.call c).2) r

/-- The reader with one more byte fetched. -/
def fetched (r : BitReader) : BitReader :=
  { r with
    cursor := r.cursor.advance 1
    remaining := r.remaining - 1
    consumed := r.consumed + 1 }

theorem next_of_remaining {r : BitReader} (h : r.remaining ≠ 0) :
    r.next = (.ok (r.image.get r.cursor.address), r.fetched) :=
  if_neg h

theorem next_of_not_remaining {r : BitReader} (h : r.remaining = 0) :
    r.next = (.error .truncated, r) :=
  if_pos h

/-- What asking for a field of `width` bits can come to. -/
inductive Took (r : BitReader) (width : UInt8) : Except BitError UInt32 × BitReader → Prop
  | nothing (hwidth : width = 0) : Took r width (.ok 0, r)
  /-- The pending byte has the bits. -/
  | pending (hwidth : width ≠ 0) (hle : width ≤ r.pendingCount) :
    Took r width (.ok (topBits r.pending r.pendingCount width),
      { r with pendingCount := r.pendingCount - width })
  /-- The pending byte has bits, but not enough of them. -/
  | underrun (hpos : 0 < r.pendingCount) (hlt : r.pendingCount < width) :
    Took r width (.error .underrun, r)
  /-- The next byte is fetched and has the bits. -/
  | fetched (hwidth : width ≠ 0) (hle : width ≤ 8) (hcount : r.pendingCount = 0)
    (hremaining : r.remaining ≠ 0) :
    Took r width (.ok (topBits (r.image.get r.cursor.address) 8 width),
      { r.fetched with pending := r.image.get r.cursor.address, pendingCount := 8 - width })
  /-- There is no next byte. -/
  | truncated (hwidth : width ≠ 0) (hcount : r.pendingCount = 0) (hremaining : r.remaining = 0) :
    Took r width (.error .truncated, r)

theorem took (r : BitReader) (width : Width) : Took r width (r.take width) := by
  obtain ⟨width, hle⟩ := width
  by_cases hwidth : width = 0
  · rw [take, if_pos hwidth]
    exact .nothing hwidth
  rw [take, if_neg hwidth, if_neg (UInt8.not_lt.2 hle)]
  by_cases hcount : r.pendingCount = 0
  · rw [if_pos hcount]
    by_cases hremaining : r.remaining = 0
    · rw [next_of_not_remaining hremaining]
      exact .truncated hwidth hcount hremaining
    · rw [next_of_remaining hremaining]
      dsimp only
      rw [takePending, if_neg (UInt8.not_lt.2 hle)]
      exact .fetched hwidth hle hcount hremaining
  · have hpos : 0 < r.pendingCount := UInt8.pos_iff_ne_zero.2 hcount
    rw [if_neg hcount, takePending]
    by_cases hlt : width > r.pendingCount
    · rw [if_pos hlt]
      exact .underrun hpos hlt
    · rw [if_neg hlt]
      exact .pending hwidth (UInt8.not_lt.1 hlt)

/-- What asking for a number can come to. -/
inductive Gave (r : BitReader) (wide : Bool) : Except BitError UInt32 × BitReader → Prop
  | byte (hwide : wide = false) (hremaining : 1 ≤ r.remaining.toNat) (v : UInt32) :
    Gave r wide (.ok v, r.fetched)
  | word (hwide : wide = true) (hremaining : 2 ≤ r.remaining.toNat) (v : UInt32) :
    Gave r wide (.ok v, r.fetched.fetched)
  | truncated (hremaining : r.remaining.toNat = 0) : Gave r wide (.error .truncated, r)
  /-- There is a low byte, but no high byte. -/
  | halved (hwide : wide = true) (hremaining : r.remaining.toNat = 1) :
    Gave r wide (.error .truncated, r.fetched)

theorem gave (r : BitReader) (wide signExtended : Bool) :
    Gave r wide (r.value wide signExtended) := by
  by_cases hremaining : r.remaining = 0
  · rw [value, next_of_not_remaining hremaining]
    exact .truncated (congrArg UInt32.toNat hremaining)
  have hleft : r.fetched.remaining.toNat + 1 = r.remaining.toNat := toNat_sub_one hremaining
  rw [value, next_of_remaining hremaining]
  dsimp only
  cases wide with
  | false => exact .byte rfl (by omega) _
  | true =>
    rw [if_pos rfl]
    by_cases hlast : r.fetched.remaining = 0
    · rw [next_of_not_remaining hlast]
      rw [hlast, UInt32.toNat_zero] at hleft
      exact .halved rfl (by omega)
    · have hlast' := toNat_sub_one hlast
      rw [next_of_remaining hlast]
      exact .word rfl (by omega) _

/-! ## What calls keep -/

theorem follows_call (r : BitReader) (c : Call) : Follows r (r.call c).2 := by
  cases c with
  | take width => exact follows_take r width
  | next => exact follows_next r
  | value wide signExtended => exact follows_value r wide signExtended

theorem follows_after (r : BitReader) (calls : List Call) : Follows r (r.after calls) := by
  induction calls generalizing r with
  | nil => exact .refl r
  | cons c rest ih => exact (follows_call r c).trans (ih (r.call c).2)

theorem Gave.pendingCount_eq {r : BitReader} {wide : Bool}
    {x : Except BitError UInt32 × BitReader} (hx : Gave r wide x) :
    x.2.pendingCount = r.pendingCount := by
  cases hx <;> rfl

section PendingCount

variable {r : BitReader} (h : r.pendingCount ≤ 7)

include h

theorem Took.pendingCount_le {width : UInt8} {x : Except BitError UInt32 × BitReader}
    (hx : Took r width x) : x.2.pendingCount ≤ 7 := by
  cases hx with
  | nothing | underrun | truncated => exact h
  | pending _ hle =>
    dsimp only
    rw [UInt8.le_iff_toNat_le] at h ⊢
    rw [UInt8.toNat_sub_of_le _ _ hle]
    omega
  | fetched hwidth hle =>
    have hpos := UInt8.pos_iff_ne_zero.2 hwidth
    dsimp only
    rw [UInt8.lt_iff_toNat_lt, UInt8.toNat_zero] at hpos
    rw [UInt8.le_iff_toNat_le, UInt8.toNat_sub_of_le _ _ hle, show (8 : UInt8).toNat = 8 from rfl,
      show (7 : UInt8).toNat = 7 from rfl]
    omega

theorem pendingCount_call (c : Call) : (r.call c).2.pendingCount ≤ 7 := by
  cases c with
  | take width => exact (r.took width).pendingCount_le h
  | next =>
    by_cases hremaining : r.remaining = 0
    · rw [call, next_of_not_remaining hremaining]
      exact h
    · rw [call, next_of_remaining hremaining]
      exact h
  | value wide signExtended => exact (r.gave wide signExtended).pendingCount_eq.symm ▸ h

theorem pendingCount_after (calls : List Call) : (r.after calls).pendingCount ≤ 7 := by
  induction calls generalizing r with
  | nil => exact h
  | cons c rest ih => exact ih (pendingCount_call h c)

end PendingCount

/-! ## Calls that fail -/

/-- Whether a call asks for two bytes. -/
def Call.isWide : Call → Bool
  | .value wide _ => wide
  | _ => false

/-- How many bytes a call has to fetch. -/
def needs (r : BitReader) : Call → Nat
  | .take width => if width.val ≠ 0 ∧ r.pendingCount = 0 then 1 else 0
  | .next => 1
  | .value wide _ => if wide then 2 else 1

theorem Took.of_error {r r' : BitReader} {width : UInt8} {e : BitError}
    (hx : Took r width (.error e, r')) : r' = r := by
  cases hx <;> rfl

/-- A call that fails has done nothing, except that a number of two bytes may have used up the last
byte. -/
theorem call_of_error {r r' : BitReader} {c : Call} {e : BitError}
    (h : r.call c = (.error e, r')) :
    r' = if c.isWide = true ∧ r.remaining.toNat = 1 then r.fetched else r := by
  cases c with
  | take width =>
    have htook := r.took width
    rw [show r.take width = _ from h] at htook
    rw [if_neg (fun hwide => Bool.false_ne_true hwide.1), htook.of_error]
  | next =>
    rw [if_neg (fun hwide => Bool.false_ne_true hwide.1)]
    by_cases hremaining : r.remaining = 0
    · rw [call, next_of_not_remaining hremaining] at h
      exact (congrArg Prod.snd h).symm
    · rw [call, next_of_remaining hremaining] at h
      cases congrArg Prod.fst h
  | value wide signExtended =>
    have hgave := r.gave wide signExtended
    rw [show r.value wide signExtended = _ from h] at hgave
    cases hgave with
    | truncated hremaining => rw [if_neg (by omega)]
    | halved hwide hremaining => rw [if_pos ⟨hwide, hremaining⟩]

theorem Took.truncated_iff {r : BitReader} {width : Width}
    {x : Except BitError UInt32 × BitReader} (hx : Took r width x) :
    x.1 = .error .truncated ↔ r.remaining.toNat < r.needs (.take width) := by
  cases hx with
  | nothing hwidth => simp [needs, hwidth]
  | pending hwidth hle =>
    have hcount : r.pendingCount ≠ 0 := fun h => hwidth (by simpa [h] using hle)
    simp [needs, hcount]
  | underrun hpos => simp [needs, UInt8.pos_iff_ne_zero.1 hpos]
  | fetched hwidth _ hcount hremaining =>
    have hne : r.remaining.toNat ≠ 0 := fun h => hremaining (UInt32.toNat_inj.1 h)
    simp [needs, hwidth, hcount, hne]
  | truncated hwidth hcount hremaining => simp [needs, hwidth, hcount, hremaining]

theorem Gave.truncated_iff {r : BitReader} {wide : Bool} {x : Except BitError UInt32 × BitReader}
    (hx : Gave r wide x) (signExtended : Bool) :
    x.1 = .error .truncated ↔ r.remaining.toNat < r.needs (.value wide signExtended) := by
  cases hx with
  | byte hwide hremaining => simpa [needs, hwide] using Nat.pos_iff_ne_zero.1 hremaining
  | word hwide hremaining =>
    have hnot : ¬ r.remaining.toNat < 2 := Nat.not_lt.2 hremaining
    simp [needs, hwide, hnot]
  | truncated hremaining => cases wide <;> simp [needs, hremaining]
  | halved hwide hremaining => simp [needs, hwide, hremaining]

/-- A call runs out of bytes exactly if it has to fetch more than there are. -/
theorem call_truncated_iff (r : BitReader) (c : Call) :
    (r.call c).1 = .error .truncated ↔ r.remaining.toNat < r.needs c := by
  cases c with
  | take width => exact (r.took width).truncated_iff
  | next =>
    by_cases hremaining : r.remaining = 0
    · simp [call, next_of_not_remaining hremaining, needs, hremaining, Except.map]
    · have hne : r.remaining.toNat ≠ 0 := fun h => hremaining (UInt32.toNat_inj.1 h)
      simp [call, next_of_remaining hremaining, needs, Except.map, hne]
  | value wide signExtended => exact (r.gave wide signExtended).truncated_iff signExtended

theorem Took.underrun_iff {r : BitReader} {width : UInt8} {x : Except BitError UInt32 × BitReader}
    (hx : Took r width x) :
    x.1 = .error .underrun ↔ 0 < r.pendingCount ∧ r.pendingCount < width := by
  cases hx with
  | nothing hwidth => simp [hwidth]
  | pending _ hle => simpa using fun _ => hle
  | underrun hpos hlt => simp [hpos, hlt]
  | fetched _ _ hcount => simp [hcount]
  | truncated _ hcount => simp [hcount]

/-! ## Bits handed out -/

/-- The bits that are pending. -/
def pendingBits (r : BitReader) : List Bool :=
  bitsOf r.pending.toNat r.pendingCount.toNat

/-- The bits of an answer to the question for a field. -/
def answerBits (width : UInt8) : Except BitError UInt32 → List Bool
  | .ok v => bitsOf v.toNat width.toNat
  | .error _ => []

/-- The bits of the fields that are handed out, one after the other. -/
def handedOut (r : BitReader) : List Width → List Bool
  | [] => []
  | width :: rest => answerBits width (r.take width).1 ++ (r.take width).2.handedOut rest

theorem bitsOf_topBits {byte count width : UInt8} (hw : width ≤ count) (hc : count ≤ 8) :
    bitsOf (topBits byte count width).toNat width.toNat ++ bitsOf byte.toNat (count - width).toNat =
      bitsOf byte.toNat count.toNat := by
  have hsub := UInt8.toNat_sub_of_le _ _ hw
  rw [UInt8.le_iff_toNat_le] at hw hc
  rw [toNat_topBits hw hc, bitsOf_mod, hsub, ← bitsOf_add, Nat.add_sub_cancel' hw]

theorem toNat_topBits_lt {byte count width : UInt8} (hw : width ≤ count) (hc : count ≤ 8) :
    (topBits byte count width).toNat < 2 ^ width.toNat := by
  rw [UInt8.le_iff_toNat_le] at hw hc
  rw [toNat_topBits hw hc]
  exact Nat.mod_lt _ (Nat.two_pow_pos _)

/-- A field has no more bits than were asked for. -/
theorem Took.lt_two_pow {r r' : BitReader} (h : r.pendingCount ≤ 7) {width : UInt8} {v : UInt32}
    (hx : Took r width (.ok v, r')) : v.toNat < 2 ^ width.toNat := by
  cases hx with
  | nothing hwidth => exact Nat.two_pow_pos _
  | pending hwidth hle => exact toNat_topBits_lt hle (UInt8.le_trans h (by decide))
  | fetched hwidth hle hcount hremaining => exact toNat_topBits_lt hle (UInt8.le_refl 8)

/-- The bits of an answer come off the pending bits, which the byte that is fetched prolongs. -/
theorem Took.bits_eq {r : BitReader} (h : r.pendingCount ≤ 7) {width : UInt8}
    {x : Except BitError UInt32 × BitReader} (hx : Took r width x) :
    answerBits width x.1 ++ x.2.pendingBits = r.pendingBits ++
      bitsOfBytes (r.image.stretch r.cursor (r.remaining.toNat - x.2.remaining.toNat)) := by
  have hnone : bitsOfBytes (r.image.stretch r.cursor (r.remaining.toNat - r.remaining.toNat)) =
      [] := by rw [Nat.sub_self]; rfl
  cases hx with
  | nothing hwidth =>
    rw [hnone, List.append_nil, hwidth]
    rfl
  | pending hwidth hle =>
    rw [hnone, List.append_nil]
    exact bitsOf_topBits hle (UInt8.le_trans h (by decide))
  | underrun | truncated => exact (List.append_nil _).symm.trans (congrArg (_ ++ ·) hnone.symm)
  | fetched hwidth hle hcount hremaining =>
    have hone : r.remaining.toNat - r.fetched.remaining.toNat = 1 := by
      have hleft : r.fetched.remaining.toNat + 1 = r.remaining.toNat := toNat_sub_one hremaining
      omega
    have hbyte : bitsOfBytes (r.image.stretch r.cursor 1) =
        bitsOf (r.image.get r.cursor.address).toNat 8 := List.append_nil _
    rw [pendingBits.eq_1 r, hcount]
    dsimp only
    rw [hone, hbyte]
    exact bitsOf_topBits hle (UInt8.le_refl 8)

/-- The cursor stands behind the bytes that were fetched. -/
theorem Follows.cursor_eq_advance {r r' : BitReader} (h : Follows r r') :
    r'.cursor = r.cursor.advance (.ofNat (r.remaining.toNat - r'.remaining.toNat)) := by
  have hsub : r'.consumed - r.consumed = r.remaining - r'.remaining := by
    have := h.sum_eq
    grind
  have hle := UInt32.le_iff_toNat_le.2 h.remaining_le
  rw [h.cursor_eq, hsub, ← UInt32.toNat_sub_of_le _ _ hle, UInt32.ofNat_toNat]

/-- The reader after some fields. -/
def afterFields (r : BitReader) (widths : List Width) : BitReader :=
  r.after (widths.map .take)

/-- The fields that are handed out, and what is pending after them, are the bits that were pending
and those of the bytes that were fetched. -/
theorem handedOut_append (widths : List Width) {r : BitReader} (h : r.pendingCount ≤ 7) :
    r.handedOut widths ++ (r.afterFields widths).pendingBits = r.pendingBits ++
      bitsOfBytes (r.image.stretch r.cursor
        (r.remaining.toNat - (r.afterFields widths).remaining.toNat)) := by
  induction widths generalizing r with
  | nil =>
    show r.pendingBits = r.pendingBits ++ bitsOfBytes (r.image.stretch r.cursor
      (r.remaining.toNat - r.remaining.toNat))
    rw [Nat.sub_self]
    exact (List.append_nil _).symm
  | cons width rest ih =>
    have hstep := (r.took width).bits_eq h
    have hfirst := follows_take r width
    have hrest := follows_after (r.take width).2 (rest.map .take)
    have hrun := ih ((r.took width).pendingCount_le h)
    have hafter : r.afterFields (width :: rest) = (r.take width).2.afterFields rest := rfl
    rw [hafter, handedOut]
    rw [← afterFields] at hrest
    generalize (r.take width).2 = r₁ at hstep hfirst hrest hrun ⊢
    have hsum : r.remaining.toNat - (r₁.afterFields rest).remaining.toNat =
        r.remaining.toNat - r₁.remaining.toNat +
          (r₁.remaining.toNat - (r₁.afterFields rest).remaining.toNat) := by
      have h₁ := hfirst.remaining_le
      have h₂ := hrest.remaining_le
      omega
    rw [List.append_assoc, hrun, ← List.append_assoc, hstep, hsum, Image.stretch_add,
      bitsOfBytes_append, List.append_assoc, hfirst.cursor_eq_advance, hfirst.image_eq]

section Start

variable {image : Image} {cursor : Cursor} {limit : UInt32}

/-- The pending byte is the last one that was fetched. -/
def PendingIsLast (image : Image) (cursor : Cursor) (r : BitReader) : Prop :=
  0 < r.pendingCount → r.pending = image.along cursor (r.consumed.toNat - 1)

theorem pendingIsLast_start (image : Image) (cursor : Cursor) (limit : UInt32) :
    PendingIsLast image cursor (start image cursor limit) :=
  fun h => absurd h (UInt8.lt_irrefl 0)

theorem PendingIsLast.bitsOf_eq {r : BitReader} (h : PendingIsLast image cursor r) :
    bitsOf (image.along cursor (r.consumed.toNat - 1)).toNat r.pendingCount.toNat =
      r.pendingBits := by
  rw [pendingBits]
  by_cases hcount : r.pendingCount = 0
  · rw [hcount]
    rfl
  · rw [h (UInt8.pos_iff_ne_zero.2 hcount)]

theorem Took.pendingIsLast {r : BitReader} (h : Follows (start image cursor limit) r)
    (hlast : PendingIsLast image cursor r) {width : UInt8}
    {x : Except BitError UInt32 × BitReader} (hx : Took r width x) :
    PendingIsLast image cursor x.2 := by
  cases hx with
  | nothing | underrun | truncated => exact hlast
  | pending hwidth hle =>
    refine fun _ => hlast ?_
    exact UInt8.lt_of_lt_of_le (UInt8.pos_iff_ne_zero.2 hwidth) hle
  | fetched hwidth hle hcount hremaining =>
    intro _
    have hfetched : r.fetched.consumed.toNat = r.consumed.toNat + 1 := by
      have hnext := follows_next r
      rw [next_of_remaining hremaining] at hnext
      have hbefore := toNat_consumed_of_follows h
      have hafter := toNat_consumed_of_follows (h.trans hnext)
      have hle : r.remaining.toNat ≤ limit.toNat := h.remaining_le
      have hleft : r.fetched.remaining.toNat + 1 = r.remaining.toNat := toNat_sub_one hremaining
      dsimp only at hafter
      omega
    have hcursor : r.cursor = cursor.advance (.ofNat r.consumed.toNat) := by
      rw [h.cursor_eq, UInt32.ofNat_toNat]
      exact congrArg cursor.advance (UInt32.sub_zero _)
    dsimp only
    rw [hfetched, Nat.add_sub_cancel, Image.along, ← Cursor.address_advance, ← hcursor]
    exact congrArg (Image.get · _) h.image_eq

theorem pendingIsLast_afterFields (widths : List Width) {r : BitReader}
    (h : Follows (start image cursor limit) r) (hlast : PendingIsLast image cursor r) :
    PendingIsLast image cursor (r.afterFields widths) := by
  induction widths generalizing r with
  | nil => exact hlast
  | cons width rest ih =>
    exact ih (h.trans (follows_take r width)) ((r.took width).pendingIsLast h hlast)

end Start

/-- **No bits are lost and none are handed out twice.**  Let a reader start at a cursor with a
limit, and let it be called any number of times, for fields of at most eight bits, bytes and
numbers.  The bytes that it fetched and those that it still may fetch add up to the limit, its cursor
stands behind the bytes fetched, and fewer than eight bits are pending.  A call runs out of bytes
exactly if it has to fetch more than it may, and a field is refused for want of pending bits exactly
if there are some, but fewer than it asks for.  A field that is handed out fits the width that was
asked for.  A call that fails leaves the reader as it is, except that a number of two bytes which
finds only the low one has used it up.

If fields are all that was asked for, then the bits of those that were handed out, and behind them
the pending bits of the last byte fetched, are the bits of all bytes fetched. -/
theorem calls_lose_no_bits (image : Image) (cursor : Cursor) (limit : UInt32) :
    (∀ calls : List Call,
      let r := (start image cursor limit).after calls
      r.remaining.toNat + r.consumed.toNat = limit.toNat ∧
        r.cursor = cursor.advance r.consumed ∧ r.pendingCount ≤ 7 ∧
        (∀ c, (r.call c).1 = .error .truncated ↔ r.remaining.toNat < r.needs c) ∧
        (∀ width : Width, (r.take width).1 = .error .underrun ↔
          0 < r.pendingCount ∧ r.pendingCount < width) ∧
        (∀ (width : Width) (v : UInt32), (r.take width).1 = .ok v →
          v.toNat < 2 ^ width.val.toNat) ∧
        ∀ c e r', r.call c = (.error e, r') →
          r' = if c.isWide = true ∧ r.remaining.toNat = 1 then r.fetched else r) ∧
    ∀ widths : List Width,
      let r := (start image cursor limit).afterFields widths
      (start image cursor limit).handedOut widths ++
          bitsOf (image.along cursor (r.consumed.toNat - 1)).toNat r.pendingCount.toNat =
        bitsOfBytes (image.stretch cursor r.consumed.toNat) := by
  have hzero : (start image cursor limit).pendingCount ≤ 7 := show (0 : UInt8) ≤ 7 by decide
  refine ⟨fun calls => ?_, fun widths => ?_⟩
  · have hfollows := follows_after (start image cursor limit) calls
    have hcount := pendingCount_after hzero calls
    generalize (start image cursor limit).after calls = r at hfollows hcount
    refine ⟨?_, ?_, hcount, r.call_truncated_iff, fun width => (r.took width).underrun_iff, ?_,
      fun _ _ _ => call_of_error⟩
    · have hconsumed := toNat_consumed_of_follows hfollows
      have hle : r.remaining.toNat ≤ limit.toNat := hfollows.remaining_le
      omega
    · rw [hfollows.cursor_eq]
      exact congrArg cursor.advance (UInt32.sub_zero _)
    · intro width v hv
      have htook := r.took width
      rw [show r.take width = (.ok v, (r.take width).2) from Prod.ext hv rfl] at htook
      exact htook.lt_two_pow hcount
  · have hfollows := follows_after (start image cursor limit) (widths.map .take)
    have hbits := handedOut_append widths hzero
    have hlast := pendingIsLast_afterFields widths (.refl (start image cursor limit))
      (pendingIsLast_start image cursor limit)
    rw [← afterFields] at hfollows
    dsimp only
    rw [hlast.bitsOf_eq, hbits, toNat_consumed_of_follows hfollows]
    rfl

end BitReader
end I8086
