import I8086.Text.Numeral
import I8086.Text.Printable

/-!
# Quoted text

How messages quote a text that came from outside: between double quotes, with the quote, the
backslash and the usual control characters behind a backslash, and every other character that is
not printable as a numeric escape.
-/

set_option autoImplicit false

namespace I8086
namespace Text

/-- The letter that follows the backslash, for the control characters that have one. -/
def controlLetter? (c : Char) : Option Char :=
  match c.toNat with
  | 0x07 => some 'a'
  | 0x08 => some 'b'
  | 0x09 => some 't'
  | 0x0a => some 'n'
  | 0x0b => some 'v'
  | 0x0c => some 'f'
  | 0x0d => some 'r'
  | _ => none

/-- A numeric escape, as short as the code point allows: two, four or eight digits. -/
def numericEscape (c : Char) : String :=
  let n := c.toNat
  if n < 0x20 || n == 0x7f then "\\x" ++ hexPadded 2 n
  else if n < 0x10000 then "\\u" ++ hexPadded 4 n
  else "\\U" ++ hexPadded 8 n

/-- What stands for `c` inside a quotation. -/
def quoteChar (c : Char) : String :=
  if c = '"' || c = '\\' then String.ofList ['\\', c]
  else if isPrintable c then String.singleton c
  else match controlLetter? c with
    | some letter => String.ofList ['\\', letter]
    | none => numericEscape c

def quote (s : String) : String :=
  "\"" ++ String.join (s.toList.map quoteChar) ++ "\""

end Text
end I8086
