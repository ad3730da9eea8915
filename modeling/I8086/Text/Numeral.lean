/-!
# Numerals

Positional numerals as listings, traces and messages print them: the digits of a natural number in
some base, padding to a column, and signed decimal numbers with or without a plus sign.
-/

set_option autoImplicit false

namespace I8086
namespace Text

/-- The numeral of `n` in `base`, most significant digit first and without leading zeros. -/
def digits (base n : Nat) : String :=
  String.ofList (Nat.toDigits base n)

/-- `s` filled up to `width` characters with copies of `c` in front. -/
def padLeft (width : Nat) (c : Char) (s : String) : String :=
  String.ofList (List.replicate (width - s.length) c) ++ s

/-- `s` filled up to `width` characters with copies of `c` behind. -/
def padRight (width : Nat) (c : Char) (s : String) : String :=
  s ++ String.ofList (List.replicate (width - s.length) c)

def decimal (n : Nat) : String :=
  digits 10 n

def hex (n : Nat) : String :=
  digits 16 n

/-- Hexadecimal with at least `width` digits. -/
def hexPadded (width n : Nat) : String :=
  padLeft width '0' (hex n)

/-- Binary with at least `width` digits. -/
def binaryPadded (width n : Nat) : String :=
  padLeft width '0' (digits 2 n)

/-- A decimal number; only negative ones carry a sign. -/
def signed (i : Int) : String :=
  if i < 0 then "-" ++ decimal i.natAbs else decimal i.natAbs

/-- A decimal number that always carries its sign, zero included. -/
def plusSigned (i : Int) : String :=
  if i < 0 then "-" ++ decimal i.natAbs else "+" ++ decimal i.natAbs

/-- Bytes as pairs of hexadecimal digits, with `separator` between them. -/
def hexBytes (separator : String) (bytes : List UInt8) : String :=
  separator.intercalate (bytes.map fun b => hexPadded 2 b.toNat)

end Text
end I8086
