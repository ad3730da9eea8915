import I8086.Text.Numeral

/-!
# Reading numerals back

A text that is put together from pieces can be taken apart again if every piece ends where a
character of another kind follows.  `Text.append_inj_of_stops` is that argument, once for all
pieces.  The numerals of listings consist of digits, so they end where something else follows, and
each of them stands for one number only (`Text.decimal_injective`, `Text.signed_injective`,
`Text.plusSigned_injective` and, for the numerals of traces, `Text.hex_injective`).
-/

set_option autoImplicit false

namespace I8086
namespace Text

/-! ## Pieces of a text -/

/-- A text that does not go on with a character of the given kind. -/
def Stops (kind : Char → Bool) (rest : List Char) : Prop :=
  ∀ c ∈ rest.head?, kind c = false

theorem Stops.nil (kind : Char → Bool) : Stops kind [] := by
  intro c hc
  cases hc

theorem Stops.cons {kind : Char → Bool} {c : Char} (h : kind c = false) (rest : List Char) :
    Stops kind (c :: rest) := by
  intro d hd
  cases hd
  exact h

theorem takeWhile_of_stops {kind : Char → Bool} {piece rest : List Char}
    (hpiece : ∀ c ∈ piece, kind c = true) (hrest : Stops kind rest) :
    (piece ++ rest).takeWhile kind = piece := by
  rw [List.takeWhile_append_of_pos hpiece]
  cases rest with
  | nil => exact List.append_nil piece
  | cons c rest => rw [List.takeWhile_cons_of_neg (by simp [hrest c rfl]), List.append_nil]

/-- A piece of one kind ends where the kind changes. -/
theorem append_inj_of_stops {kind : Char → Bool} {piece piece' rest rest' : List Char}
    (hpiece : ∀ c ∈ piece, kind c = true) (hpiece' : ∀ c ∈ piece', kind c = true)
    (hrest : Stops kind rest) (hrest' : Stops kind rest')
    (h : piece ++ rest = piece' ++ rest') : piece = piece' ∧ rest = rest' := by
  have hsame : piece = piece' := by
    rw [← takeWhile_of_stops hpiece hrest, h, takeWhile_of_stops hpiece' hrest']
  subst hsame
  exact ⟨rfl, List.append_cancel_left h⟩

theorem bne_of_not_mem {c : Char} {piece : List Char} (h : c ∉ piece) :
    ∀ d ∈ piece, (d != c) = true := by
  intro d hd
  rw [bne_iff_ne]
  rintro rfl
  exact h hd

/-- A piece without `c` ends at the first `c`. -/
theorem append_cons_inj {c : Char} {piece piece' rest rest' : List Char} (hpiece : c ∉ piece)
    (hpiece' : c ∉ piece') (h : piece ++ c :: rest = piece' ++ c :: rest') :
    piece = piece' ∧ rest = rest' := by
  have hstops : ∀ r : List Char, Stops (· != c) (c :: r) := fun r => .cons (by simp) r
  obtain ⟨hsame, hrest⟩ := append_inj_of_stops (bne_of_not_mem hpiece) (bne_of_not_mem hpiece')
    (hstops rest) (hstops rest') h
  exact ⟨hsame, (List.cons.inj hrest).2⟩

/-! ## Numerals -/

theorem toList_decimal (n : Nat) : (decimal n).toList = Nat.toDigits 10 n := String.toList_ofList

theorem isDigit_of_mem_decimal {n : Nat} {c : Char} (h : c ∈ (decimal n).toList) :
    c.isDigit = true := by
  rw [toList_decimal] at h
  exact Nat.isDigit_of_mem_toDigits (by decide) (by decide) h

theorem decimal_ne_nil (n : Nat) : (decimal n).toList ≠ [] := by
  rw [toList_decimal]
  exact Nat.toDigits_ne_nil

/-- A character that is no digit does not occur in a numeral. -/
theorem not_mem_decimal {c : Char} (h : c.isDigit = false) (n : Nat) :
    c ∉ (decimal n).toList := by
  intro hc
  rw [isDigit_of_mem_decimal hc] at h
  cases h

theorem decimal_injective {m n : Nat} (h : decimal m = decimal n) : m = n := by
  have hdigits : Nat.toDigits 10 m = Nat.toDigits 10 n := by
    rw [← toList_decimal, ← toList_decimal, h]
  rw [← Nat.ofDigitChars_toDigits (b := 10) (n := m) (by decide) (by decide), hdigits,
    Nat.ofDigitChars_toDigits (by decide) (by decide)]

theorem signed_injective {i j : Int} (h : signed i = signed j) : i = j := by
  rw [signed, signed] at h
  have hsign : ∀ m n : Nat, decimal m ≠ "-" ++ decimal n := by
    intro m n hm
    refine not_mem_decimal (c := '-') rfl m ?_
    rw [hm]
    simp
  split at h <;> split at h
  · have := decimal_injective (String.append_right_inj "-" |>.1 h)
    omega
  · exact absurd h.symm (hsign _ _)
  · exact absurd h (hsign _ _)
  · have := decimal_injective h
    omega

theorem plusSigned_injective {i j : Int} (h : plusSigned i = plusSigned j) : i = j := by
  rw [plusSigned, plusSigned] at h
  split at h <;> split at h
  · have := decimal_injective (String.append_right_inj "-" |>.1 h)
    omega
  · have := congrArg String.toList h
    simp at this
  · have := congrArg String.toList h
    simp at this
  · have := decimal_injective (String.append_right_inj "+" |>.1 h)
    omega

theorem toList_hex (n : Nat) : (hex n).toList = Nat.toDigits 16 n := String.toList_ofList

theorem toList_hex_of_le {n : Nat} (h : 16 ≤ n) :
    (hex n).toList = (hex (n / 16)).toList ++ [(n % 16).digitChar] := by
  rw [toList_hex, toList_hex, Nat.toDigits_of_base_le (by decide) h]

theorem toList_hex_of_lt {n : Nat} (h : n < 16) : (hex n).toList = [n.digitChar] := by
  rw [toList_hex, Nat.toDigits_of_lt_base h]

theorem exists_digitChar_of_mem_hex {n : Nat} {c : Char} (h : c ∈ (hex n).toList) :
    ∃ d : Nat, d.digitChar = c := by
  induction n using Nat.strongRecOn with
  | ind n ih =>
    rcases Nat.lt_or_ge n 16 with hn | hn
    · rw [toList_hex_of_lt hn, List.mem_singleton] at h
      exact ⟨n, h.symm⟩
    · rw [toList_hex_of_le hn, List.mem_append, List.mem_singleton] at h
      rcases h with h | h
      · exact ih _ (by omega) h
      · exact ⟨n % 16, h.symm⟩

theorem hex_injective {m n : Nat} (h : hex m = hex n) : m = n := by
  have hchars := congrArg String.toList h
  have hdigit : ∀ m < 16, ∀ n < 16, m.digitChar = n.digitChar → m = n := by decide
  have hlong : ∀ {k l : Nat}, 16 ≤ k → l < 16 → (hex k).toList ≠ (hex l).toList := by
    intro k l hk hl hkl
    have hlength := congrArg List.length hkl
    rw [toList_hex_of_le hk, toList_hex_of_lt hl, List.length_append, List.length_singleton,
      List.length_singleton, Nat.add_eq_right, List.length_eq_zero_iff, toList_hex] at hlength
    exact Nat.toDigits_ne_nil hlength
  clear h
  -- the last digits agree, and so do the numerals in front of them
  induction m using Nat.strongRecOn generalizing n with
  | ind m ih =>
    rcases Nat.lt_or_ge m 16 with hm | hm <;> rcases Nat.lt_or_ge n 16 with hn | hn
    · rw [toList_hex_of_lt hm, toList_hex_of_lt hn] at hchars
      exact hdigit m hm n hn (List.cons.inj hchars).1
    · exact absurd hchars.symm (hlong hn hm)
    · exact absurd hchars (hlong hm hn)
    · rw [toList_hex_of_le hm, toList_hex_of_le hn] at hchars
      obtain ⟨hfront, hlast⟩ := List.append_inj' hchars rfl
      have hquotient := ih (m / 16) (by omega) hfront
      have hrest := hdigit _ (Nat.mod_lt m (by decide)) _ (Nat.mod_lt n (by decide))
        (List.cons.inj hlast).1
      omega

end Text
end I8086
