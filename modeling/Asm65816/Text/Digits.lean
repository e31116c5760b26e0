/-!
# Digits

Numerals in a given base, with upper-case letters for the digits above nine, and the fixed
two's complement window that is shown when a negative word is written in base sixteen.
-/

namespace Asm65816

/-- The digits of `n` in `base`, most significant first, with at least one digit. -/
def digitsIn (base n : Nat) : List Char :=
  (Nat.toDigits base n).map Char.toUpper

/-- `digitsIn` with zeros put in front until there are at least `width` digits. -/
def paddedDigits (base width n : Nat) : String :=
  let digits := digitsIn base n
  String.ofList (List.replicate (width - digits.length) '0' ++ digits)

/-- The 64-bit two's complement pattern of a word. -/
def unsignedWord (value : Int) : Nat := (value % 0x10000000000000000).toNat

/-- A word in base sixteen with at least `width` digits. A negative word shows its 64-bit
pattern. -/
def hexWord (width : Nat) (value : Int) : String := paddedDigits 16 width (unsignedWord value)

/-- Two upper-case digits for one byte. -/
def hexByte (byte : UInt8) : String := paddedDigits 16 2 byte.toNat

/-- The value of a digit of a base up to sixteen, in either letter case. -/
def digitValue? (base : Nat) (c : Char) : Option Nat :=
  let value :=
    if '0' ≤ c ∧ c ≤ '9' then c.toNat - '0'.toNat
    else if 'a' ≤ c ∧ c ≤ 'f' then c.toNat - 'a'.toNat + 10
    else if 'A' ≤ c ∧ c ≤ 'F' then c.toNat - 'A'.toNat + 10
    else base
  if value < base then some value else none

/-- Whether `c` is a digit of `base`. -/
def isDigitIn (base : Nat) (c : Char) : Bool := (digitValue? base c).isSome

/-- The positional value of a run of digits; characters that are no digits count as zero. -/
def positionalValue (base : Nat) (digits : List Char) : Nat :=
  digits.foldl (fun total c => total * base + (digitValue? base c).getD 0) 0

end Asm65816
