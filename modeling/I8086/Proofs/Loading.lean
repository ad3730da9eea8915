import Mathlib.Algebra.Ring.Nat
import I8086.Memory.Load

/-!
# Loading a plain program

A source delivers bytes and then ends or fails.  Unless the bytes are a packed program, loading
copies them into the image as far as it goes, and what it reports about the source depends on how
far that was.  It also depends on the failure: one that passes on the end of something else, or an
end that came too early, is taken for the end of the program.

* `Image.Copied` relates an image to the one before a copy: byte by byte where bytes were placed, and
  unchanged everywhere else.
* `Image.Copied.read_eq` reads such a copy back.
* `Image.load_of_plain` reduces loading to placing bytes, and `Image.load_copies_plain_program` puts
  all cases together.
* `Image.Reports` is what one would expect of failures.  The theorem says when it is so, and
  `Image.load_hides_early_end` names a source.
-/

set_option autoImplicit false

namespace I8086

theorem Address.wrap_add_wrap (m n : Nat) : wrap m + wrap n = wrap (m + n) := by
  refine BitVec.eq_of_toNat_eq ?_
  rw [BitVec.toNat_add, toNat_wrap, toNat_wrap, toNat_wrap]
  exact (Nat.add_mod m n imageSize).symm

namespace Image

/-! ## Copies -/

/-- `m'` is `m` with the first `n` bytes of `data` from address number `start` on. -/
structure Copied (m m' : Image) (start n : Nat) (data : List UInt8) : Prop where
  placed : ∀ i < n, data[i]? = some (m'.get (.wrap (start + i)))
  kept : ∀ a : Address, a.toNat < start ∨ start + n ≤ a.toNat → m'.get a = m.get a

/-- How many bytes there are from an address number to the end of the image. -/
def room (start : Nat) : Nat := imageSize - start

theorem copied_setRange (m : Image) (start : Nat) (data : List UInt8) :
    Copied m (m.setRange start data) start (min data.length (room start)) data := by
  refine ⟨fun i hi => ?_, fun a ha => ?_⟩
  · have hlen : i < data.length := by omega
    have haddress : (Address.wrap (start + i)).toNat = start + i := by
      rw [Address.toNat_wrap, Nat.mod_eq_of_lt]
      rw [room] at hi
      omega
    rw [get_setRange, haddress, if_pos (Nat.le_add_right start i), Nat.add_sub_cancel_left,
      List.getElem?_eq_getElem hlen]
    rfl
  · have hlt := a.toNat_lt
    rw [get_setRange]
    split
    · have hlen : data.length ≤ a.toNat - start := by
        rw [room] at ha
        omega
      rw [List.getElem?_eq_none hlen]
      rfl
    · rfl

theorem Copied.read_eq {m m' : Image} {offset count : UInt32} {data : List UInt8}
    (h : Copied m m' offset.toNat count.toNat data) :
    m'.read offset count = data.take count.toNat := by
  refine List.ext_getElem? fun i => ?_
  rw [read, getRange, List.getElem?_map, List.getElem?_take]
  by_cases hi : i < count.toNat
  · rw [List.getElem?_range hi, if_pos hi, h.placed i hi, Address.ofWord, Option.map_some,
      Address.wrap_add_wrap]
  · rw [if_neg hi, List.getElem?_eq_none (by rw [List.length_range]; omega)]
    rfl

theorem toNat_count_place (m : Image) (start : Nat) (s : Source) :
    (m.place start s).count.toNat = min s.bytes.length (room start) := by
  have hlt : min s.bytes.length (room start) < 2 ^ 32 := by
    rw [room, imageSize]
    omega
  exact UInt32.toNat_ofNat_of_lt' hlt

/-- A failure is reported if the image has room left and the failure is not taken for the end. -/
theorem error_place_eq_some_iff {m : Image} {start : Nat} {s : Source} {e : LoadError} :
    (m.place start s).error = some e ↔ ∃ failure, e = .read failure ∧ s.failure = some failure ∧
      failure.endsProgram = false ∧ s.bytes.length < room start := by
  have herror : (m.place start s).error = if room start ≤ s.bytes.length then none
      else (s.failure.filter fun e => !e.endsProgram).map .read := rfl
  rw [herror]
  by_cases hfull : room start ≤ s.bytes.length
  · rw [if_pos hfull]
    constructor
    · intro h
      cases h
    · rintro ⟨-, -, -, -, hroom⟩
      exact absurd hroom (Nat.not_lt.2 hfull)
  · rw [if_neg hfull, Option.map_eq_some_iff]
    constructor
    · rintro ⟨failure, hfailure, rfl⟩
      obtain ⟨hfailure, hends⟩ := Option.filter_eq_some_iff.1 hfailure
      exact ⟨failure, rfl, hfailure, (Bool.not_eq_true' _).mp hends, Nat.not_le.1 hfull⟩
    · rintro ⟨failure, rfl, hfailure, hends, -⟩
      exact ⟨failure, Option.filter_eq_some_iff.2 ⟨hfailure, (Bool.not_eq_true' _).mpr hends⟩, rfl⟩

theorem error_place_eq_none {m : Image} {start : Nat} {s : Source}
    (h : ∀ e ∈ s.failure, e.endsProgram = true) : (m.place start s).error = none := by
  rw [Option.eq_none_iff_forall_ne_some]
  intro e he
  obtain ⟨failure, -, hfailure, hends, -⟩ := error_place_eq_some_iff.1 he
  exact absurd (h failure hfailure) (ne_true_of_eq_false hends)

theorem copy_eq_place (m : Image) {offset : UInt32} (h : offset.toNat < imageSize) (s : Source) :
    m.copy offset s.bytes = .ok ((m.place offset.toNat s).count,
      (m.place offset.toNat s).image) := by
  have haddress : (Address.ofWord offset).toNat = offset.toNat := Nat.mod_eq_of_lt h
  rw [copy, checkAddress, if_pos h, Except.map, haddress]
  rfl

end Image

/-! ## Sources of plain programs -/

theorem Source.headFailure?_eq (s : Source) : s.headFailure? =
    if s.bytes.length < 6 then s.failure.filter fun e => !e.isEnd else none := by
  have hlength : (s.bytes.take packedMagic.length).length < packedMagic.length ↔
      s.bytes.length < 6 := by
    rw [List.length_take, show packedMagic.length = 6 from rfl]
    omega
  simp only [headFailure?, hlength]

/-- Nothing is wrong with the first bytes if they are there, or if the source ends before. -/
theorem Source.headFailure?_eq_none {s : Source}
    (h : ∀ e ∈ s.failure, s.bytes.length < 6 → e.isEnd = true) : s.headFailure? = none := by
  rw [headFailure?_eq]
  split
  · rename_i hlength
    rw [Option.filter_eq_none_iff]
    intro e he
    rw [h e he hlength]
    exact Bool.false_ne_true
  · rfl

namespace Image

section Load

variable (m : Image) (unpack : Unpacker) (s : Source) {offset : UInt32}

theorem load_of_beyond (h : imageSize ≤ offset.toNat) :
    m.load unpack s offset = ⟨0, m, some (.offset offset)⟩ :=
  if_pos h

variable {s} (hoffset : offset.toNat < imageSize)

include hoffset

/-- A source that fails early might have had a packed program. -/
theorem load_of_early_failure {e : ReadError} (hfailure : s.failure = some e)
    (hlength : s.bytes.length < 6) (hend : e.isEnd = false) :
    m.load unpack s offset = ⟨0, m, some (.header e)⟩ := by
  have hhead : s.headFailure? = some e := by
    rw [s.headFailure?_eq, if_pos hlength, hfailure]
    exact Option.filter_eq_some_iff.2 ⟨rfl, (Bool.not_eq_true' _).mpr hend⟩
  rw [load, if_neg (Nat.not_le.2 hoffset), hhead]

theorem load_of_plain (hplain : ¬ packedMagic <+: s.bytes) (hhead : s.headFailure? = none) :
    m.load unpack s offset = m.place offset.toNat s := by
  have hmagic : s.bytes.take packedMagic.length ≠ packedMagic :=
    fun h => hplain (h ▸ List.take_prefix _ s.bytes)
  rw [load, if_neg (Nat.not_le.2 hoffset), hhead]
  exact if_neg hmagic

end Load

/-- What one would expect of the result of loading at `start`, whatever the source fails with: a
failure before six bytes leaves everything as it was and is reported, and otherwise what there is
has been copied, and a failure is reported exactly if the image had room left by then. -/
structure Reports (m : Image) (s : Source) (start : Nat) (loaded : Loaded) : Prop where
  early : s.failure.isSome = true → s.bytes.length < 6 →
    loaded.count = 0 ∧ loaded.image = m ∧ loaded.error.isSome = true
  copied : (s.failure.isSome = true → 6 ≤ s.bytes.length) →
    loaded.count.toNat = min s.bytes.length (room start) ∧
      Copied m loaded.image start (min s.bytes.length (room start)) s.bytes
  reported : (s.failure.isSome = true → 6 ≤ s.bytes.length) →
    (loaded.error.isSome = true ↔ s.failure.isSome = true ∧ s.bytes.length < room start)

/-- A failure that neither comes early and passes on an end, nor is taken for the end of the program
while the image has room left. -/
def IsPlainFailure (s : Source) (start : Nat) (e : ReadError) : Prop :=
  if s.bytes.length < 6 then e.isEnd = false
  else s.bytes.length < room start → e.endsProgram = false

section Reports

variable {m : Image} {unpack : Unpacker} {s : Source} {offset : UInt32}
  (hoffset : offset.toNat < imageSize) (hplain : ¬ packedMagic <+: s.bytes)

include hoffset hplain

theorem reports_load (h : ∀ e ∈ s.failure, IsPlainFailure s offset.toNat e) :
    Reports m s offset.toNat (m.load unpack s offset) := by
  have hplace (hsource : s.failure.isSome = true → 6 ≤ s.bytes.length) :
      m.load unpack s offset = m.place offset.toNat s :=
    m.load_of_plain unpack hoffset hplain (Source.headFailure?_eq_none fun e he hlength =>
      absurd (hsource (Option.isSome_of_mem he)) (Nat.not_le.2 hlength))
  constructor
  · intro hfails hlength
    obtain ⟨e, he⟩ := Option.isSome_iff_exists.1 hfails
    have hend := h e he
    rw [IsPlainFailure, if_pos hlength] at hend
    rw [m.load_of_early_failure unpack hoffset he hlength hend]
    exact ⟨rfl, rfl, rfl⟩
  · intro hsource
    rw [hplace hsource]
    exact ⟨m.toNat_count_place .., m.copied_setRange ..⟩
  · intro hsource
    rw [hplace hsource, Option.isSome_iff_exists]
    constructor
    · rintro ⟨_, herror⟩
      obtain ⟨failure, -, hfailure, -, hroom⟩ := error_place_eq_some_iff.1 herror
      exact ⟨Option.isSome_of_mem hfailure, hroom⟩
    · rintro ⟨hfails, hroom⟩
      obtain ⟨e, he⟩ := Option.isSome_iff_exists.1 hfails
      have hends := h e he
      rw [IsPlainFailure, if_neg (Nat.not_lt.2 (hsource hfails))] at hends
      exact ⟨.read e, error_place_eq_some_iff.2 ⟨e, rfl, he, hends hroom, hroom⟩⟩

theorem isPlainFailure_of_reports (h : Reports m s offset.toNat (m.load unpack s offset))
    {e : ReadError} (he : s.failure = some e) : IsPlainFailure s offset.toNat e := by
  have hfails : s.failure.isSome = true := Option.isSome_of_mem he
  -- A failure that is taken for the end is not reported.
  have hhidden (hends : e.endsProgram = true) (hhead : s.headFailure? = none) :
      (m.load unpack s offset).error = none := by
    rw [m.load_of_plain unpack hoffset hplain hhead]
    refine error_place_eq_none fun e' he' => ?_
    cases he.symm.trans he'
    exact hends
  rw [IsPlainFailure]
  split
  · rename_i hlength
    refine eq_false_of_ne_true fun hend => ?_
    have hends : e.endsProgram = true := by
      rw [ReadError.endsProgram, hend]
      rfl
    have hhead : s.headFailure? = none := Source.headFailure?_eq_none fun e' he' _ => by
      cases he.symm.trans he'
      exact hend
    have hreported := (h.early hfails hlength).2.2
    rw [hhidden hends hhead] at hreported
    cases hreported
  · rename_i hlength
    intro hroom
    refine eq_false_of_ne_true fun hends => ?_
    have hhead : s.headFailure? = none :=
      Source.headFailure?_eq_none fun _ _ hshort => absurd hshort hlength
    have hreported := (h.reported fun _ => Nat.not_lt.1 hlength).2 ⟨hfails, hroom⟩
    rw [hhidden hends hhead] at hreported
    cases hreported

end Reports

/-- **Loading a plain program is a copy that ends with the image.**  Let a source deliver bytes that
are no packed program, and then end or fail.

* At an offset outside of the image nothing is loaded.
* If the source fails before it has delivered six bytes, and not because something came to its end,
  nothing is loaded, and the failure is reported.
* Otherwise as many bytes are loaded as there are and as fit, from the offset on, and all other
  bytes of the image stay.  A failure is reported exactly if the image had room left by then and the
  failure is neither a passed on end nor an end that came too early.
* So failures are reported as one would expect exactly if the failure is none of these.

If the source does not fail, the result is that of copying the bytes, and they can be read back. -/
theorem load_copies_plain_program (m : Image) (unpack : Unpacker) (s : Source) (offset : UInt32)
    (hplain : ¬ packedMagic <+: s.bytes) :
    let n := min s.bytes.length (room offset.toNat)
    let loaded := m.load unpack s offset
    (imageSize ≤ offset.toNat → loaded = ⟨0, m, some (.offset offset)⟩) ∧
    (offset.toNat < imageSize →
      (∀ e, s.failure = some e → s.bytes.length < 6 → e.isEnd = false →
        loaded = ⟨0, m, some (.header e)⟩) ∧
      ((∀ e, s.failure = some e → s.bytes.length < 6 → e.isEnd = true) →
        loaded.count.toNat = n ∧ Copied m loaded.image offset.toNat n s.bytes ∧
          ∀ e, loaded.error = some e ↔ ∃ failure, e = .read failure ∧ s.failure = some failure ∧
            failure.endsProgram = false ∧ s.bytes.length < room offset.toNat) ∧
      (Reports m s offset.toNat loaded ↔
        ∀ e, s.failure = some e → IsPlainFailure s offset.toNat e) ∧
      (s.failure = none →
        m.copy offset s.bytes = .ok (loaded.count, loaded.image) ∧ loaded.error = none ∧
          loaded.image.read offset loaded.count = s.bytes.take n)) := by
  intro n loaded
  refine ⟨m.load_of_beyond unpack s, fun hoffset => ⟨fun e => m.load_of_early_failure unpack hoffset,
    ?_, ?_, ?_⟩⟩
  · intro hsource
    have hloaded : loaded = m.place offset.toNat s :=
      m.load_of_plain unpack hoffset hplain (Source.headFailure?_eq_none hsource)
    rw [hloaded]
    exact ⟨m.toNat_count_place .., m.copied_setRange .., fun _ => error_place_eq_some_iff⟩
  · exact ⟨fun h _ => isPlainFailure_of_reports hoffset hplain h, reports_load hoffset hplain⟩
  · intro hfailure
    have hnone : ∀ e, s.failure ≠ some e := by
      rw [hfailure]
      intro e he
      cases he
    have hloaded : loaded = m.place offset.toNat s :=
      m.load_of_plain unpack hoffset hplain
        (Source.headFailure?_eq_none fun e he => absurd he (hnone e))
    have hcount := m.toNat_count_place offset.toNat s
    have hcopied := m.copied_setRange offset.toNat s.bytes
    rw [← hcount] at hcopied
    rw [hloaded]
    refine ⟨m.copy_eq_place hoffset s, error_place_eq_none fun e he => absurd he (hnone e), ?_⟩
    exact hcopied.read_eq.trans (congrArg (List.take · s.bytes) hcount)

/-- Ten bytes from a source that fails behind them.  Four bytes before the end of the image, four
bytes are loaded, the failure does not matter any more, and the first byte of the image is kept.  At
its start, all of them are loaded and the failure is reported. -/
theorem load_copies_up_to_end :
    let failure : ReadError := ⟨"input/output error", false, false⟩
    let s : Source := ⟨List.replicate 10 0x90, some failure⟩
    let last := zero.load Except.ok s 0xFFFFC
    let first := zero.load Except.ok s 0
    ¬ packedMagic <+: s.bytes ∧ last.count.toNat = 4 ∧ last.error = none ∧
      last.image.get (.wrap 0xFFFFF) = 0x90 ∧ last.image.get (.wrap 0) = 0 ∧
      first.count.toNat = 10 ∧ first.error = some (.read failure) := by
  intro failure s last first
  have hplain : ¬ packedMagic <+: s.bytes := by decide
  have hload (offset : UInt32) (hoffset : offset.toNat < imageSize) :=
    ((zero.load_copies_plain_program Except.ok s offset hplain).2 hoffset).2.1
      fun _ _ hlength => absurd hlength (by decide)
  obtain ⟨hcount, hcopied, herror⟩ := hload 0xFFFFC (by decide)
  obtain ⟨hcount', -, herror'⟩ := hload 0 (by decide)
  refine ⟨hplain, hcount, ?_, ?_, ?_, hcount', ?_⟩
  · rw [Option.eq_none_iff_forall_ne_some]
    intro e he
    obtain ⟨-, -, -, -, hroom⟩ := (herror e).1 he
    exact absurd hroom (by decide)
  · exact (Option.some.inj (hcopied.placed 3 (by decide))).symm
  · rw [hcopied.kept _ (.inl (by decide)), get_zero]
  · exact (herror' _).2 ⟨failure, rfl, rfl, rfl, by decide⟩

/-- Ten bytes from a source that ends too early behind them are loaded as if they were all. -/
theorem load_hides_early_end :
    let s : Source := ⟨List.replicate 10 0x90, some .earlyEnd⟩
    let loaded := zero.load Except.ok s 0
    loaded.count.toNat = 10 ∧ loaded.error = none ∧ ¬ Reports zero s 0 loaded := by
  intro s loaded
  have hplain : ¬ packedMagic <+: s.bytes := by decide
  have hloaded : loaded = zero.place 0 s := zero.load_of_plain _ (by decide) hplain rfl
  have herror : loaded.error = none := by
    rw [hloaded]
    refine error_place_eq_none fun e he => ?_
    cases he
    rfl
  refine ⟨?_, herror, fun h => ?_⟩
  · rw [hloaded]
    exact zero.toNat_count_place 0 s
  · have hreported := (h.reported fun _ => by decide).2 ⟨rfl, by decide⟩
    rw [herror] at hreported
    cases hreported

end Image
end I8086
