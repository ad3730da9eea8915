/-!
# Integer literals

Integers as they are written on the command line: an optional sign, an optional base in front
(`0x`, `0o`, `0b`, or a plain `0` for octal) and underscores between digits. Numbers have to fit
into 64 bits with a sign.
-/

set_option autoImplicit false

namespace I8086
namespace Text

inductive IntegerError
  /-- The text is not an integer literal. -/
  | malformed
  /-- The number does not fit into 64 bits. -/
  | outOfRange
  deriving DecidableEq, Repr

def IntegerError.message : IntegerError → String
  | malformed => "parse error"
  | outOfRange => "value out of range"

/-- The value of a digit, letters included. -/
def digitValue? (c : Char) : Option Nat :=
  if '0' ≤ c && c ≤ '9' then some (c.toNat - '0'.toNat)
  else if 'a' ≤ c && c ≤ 'z' then some (c.toNat - 'a'.toNat + 10)
  else if 'A' ≤ c && c ≤ 'Z' then some (c.toNat - 'A'.toNat + 10)
  else none

/-- The base that the beginning of a literal names, and the digits behind it. -/
def splitBase (literal : List Char) : Nat × List Char :=
  match literal with
  | '0' :: 'x' :: c :: rest | '0' :: 'X' :: c :: rest => (16, c :: rest)
  | '0' :: 'o' :: c :: rest | '0' :: 'O' :: c :: rest => (8, c :: rest)
  | '0' :: 'b' :: c :: rest | '0' :: 'B' :: c :: rest => (2, c :: rest)
  | '0' :: rest => (8, rest)
  | digits => (10, digits)

/-- Numbers of 64 bits are below this one. -/
def wordBound : Nat := 18446744073709551616

/-- Integers of 64 bits with a sign lie between the negative of this one and the number before
it. -/
def integerBound : Nat := 9223372036854775808

/-- Reads digits onto `acc`, skipping underscores. A number that leaves 64 bits is out of range,
whatever follows it. -/
def readDigits (base acc : Nat) : List Char → Except IntegerError Nat
  | [] => .ok acc
  | c :: rest =>
    if c = '_' then readDigits base acc rest
    else
      match digitValue? c with
      | none => .error .malformed
      | some d =>
        if base ≤ d then .error .malformed
        else
          let next := acc * base + d
          if wordBound ≤ next then .error .outOfRange else readDigits base next rest

/-- Whether every underscore has a digit on either side; `digitBefore` says that a digit, or the
base, came just before. -/
def underscoresSeparate (digitBefore : Bool) : List Char → Bool
  | [] => true
  | '_' :: rest =>
    match rest with
    | c :: _ => digitBefore && c != '_' && underscoresSeparate false rest
    | [] => false
  | _ :: rest => underscoresSeparate true rest

/-- A number without a sign. -/
def readNatural (literal : List Char) : Except IntegerError Nat :=
  if literal.isEmpty then .error .malformed
  else
    let (base, digits) := splitBase literal
    let named := digits.length + 2 = literal.length
    match readDigits base 0 digits with
    | .error e => .error e
    | .ok n =>
      if underscoresSeparate named (if named then digits else literal) then .ok n
      else .error .malformed

/-- An integer with an optional sign. -/
def readInteger (literal : String) : Except IntegerError Int :=
  let bounded (negative : Bool) (digits : List Char) : Except IntegerError Int :=
    match readNatural digits with
    | .error e => .error e
    | .ok n =>
      if negative then if n ≤ integerBound then .ok (-n) else .error .outOfRange
      else if n < integerBound then .ok n else .error .outOfRange
  match literal.toList with
  | '+' :: digits => bounded false digits
  | '-' :: digits => bounded true digits
  | digits => bounded false digits

end Text
end I8086
