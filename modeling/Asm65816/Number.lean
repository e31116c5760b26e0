import Asm65816.Text.Digits

/-!
# Numbers with a stated width

A literal carries its value, the radix it was written in and the number of bytes its text
implies: `0x0001` states two bytes although its value fits in one, and the choice of an
addressing mode rests on that difference. Values are 64-bit signed words; arithmetic is exact
and fails instead of wrapping around. Only the complement does not look whether its value is a word;
where it is none, evaluation does not fail but stops the whole program.
-/

namespace Asm65816

/-- The base a literal was written in. -/
inductive Radix where
  | binary
  | octal
  | decimal
  | hexadecimal
  deriving DecidableEq, Repr, Inhabited

/-- Why an expression has no value, or why a name cannot take one. -/
inductive EvalError where
  /-- A name that nothing gives a value to. -/
  | unresolvedName (name : String)
  /-- A group that does not hold exactly one expression. -/
  | groupValue (count : Nat)
  /-- A quoted string where a number is needed. -/
  | stringValue
  /-- A second value for a name that differs from the first. -/
  | bindConflict (name : String) (existing value : Int)
  /-- An exponent that is negative or does not fit 32 bits. -/
  | negativeExponent
  | divisionByZero
  /-- A result outside the 64-bit signed range. -/
  | overflow
  /-- An operation that does not check its result and leaves the 64-bit signed range. It is no error
  that is reported: the program stops there. -/
  | trap
  deriving DecidableEq, Repr

namespace EvalError

/-- The wording of an evaluation error. -/
def message : EvalError → String
  | unresolvedName name => s!"'{name}' has no value yet"
  | groupValue count => s!"a group of {count} expressions has no single value"
  | stringValue => "a quoted string has no numeric value"
  | bindConflict name existing value =>
    s!"'{name}' is already bound to {existing}; cannot rebind it to {value}"
  | negativeExponent => "negative exponent"
  | divisionByZero => "division by zero"
  | overflow => "arithmetic overflow"
  | trap => "attempt to subtract with overflow"

end EvalError

/-- The least 64-bit signed word. -/
def minWord : Int := -0x8000000000000000

/-- The greatest 64-bit signed word. -/
def maxWord : Int := 0x7FFFFFFFFFFFFFFF

/-- `value` as a 64-bit signed word, or `overflow` when it is none. -/
def checkedWord (value : Int) : Except EvalError Int :=
  if minWord ≤ value ∧ value ≤ maxWord then .ok value else .error .overflow

/-- How many values a field of `count` bytes tells apart. -/
def fieldSpan : Nat → Int
  | 0 => 1
  | count + 1 => 256 * fieldSpan count

/-- The fewest bytes that hold `value`: as an unsigned number when it is not negative, in two's
complement otherwise. At least one and at most eight. -/
def requiredBytes (value : Int) : Nat :=
  let holds (count : Nat) : Bool :=
    if 0 ≤ value then value < fieldSpan count else -fieldSpan count ≤ 2 * value
  ([1, 2, 3, 4, 5, 6, 7].find? holds).getD 8

/-- The byte at position `index` of a word, counted from the least significant one. -/
def wordByte (value : Int) (index : Nat) : UInt8 :=
  UInt8.ofNat (value / fieldSpan index % 256).toNat

/-- The `count` low bytes of a word, least significant first. -/
def littleEndian (value : Int) (count : Nat) : List UInt8 :=
  (List.range count).map (wordByte value)

/-- A literal: its value, the radix of its text and the bytes its text states. -/
structure Number where
  value : Int
  radix : Radix
  width : Nat
  deriving DecidableEq, Repr, Inhabited

namespace Number

/-- A decimal number as wide as its value needs. -/
def ofInt (value : Int) : Number := ⟨value, .decimal, requiredBytes value⟩

/-- A hexadecimal number of a stated width. -/
def ofHex (value : Int) (width : Nat) : Number := ⟨value, .hexadecimal, width⟩

/-- Everything but zero counts as true. -/
def isTrue (n : Number) : Bool := n.value ≠ 0

/-- An operand that counts places: it has to fit 32 unsigned bits. -/
def placeCount? (n : Number) : Option Nat :=
  if 0 ≤ n.value ∧ n.value < 0x100000000 then some n.value.toNat else none

def add (a b : Number) : Except EvalError Int := checkedWord (a.value + b.value)

def sub (a b : Number) : Except EvalError Int := checkedWord (a.value - b.value)

def mul (a b : Number) : Except EvalError Int := checkedWord (a.value * b.value)

/-- Division that rounds toward negative infinity. -/
def div (a b : Number) : Except EvalError Int :=
  if b.value = 0 then .error .divisionByZero else checkedWord (a.value.fdiv b.value)

/-- Remainder with the sign of the divisor. The least word has no remainder by minus one,
because the quotient of the two is no word. -/
def rem (a b : Number) : Except EvalError Int :=
  if b.value = 0 then .error .divisionByZero
  else if a.value = minWord ∧ b.value = -1 then .error .overflow
  else .ok (a.value.fmod b.value)

/-- Power with an exponent of at most 32 bits. A base beyond minus one, zero and one leaves the
64-bit range before the exponent reaches 64, so larger exponents need no multiplication. -/
def pow (a b : Number) : Except EvalError Int :=
  match b.placeCount? with
  | none => .error .negativeExponent
  | some 0 => .ok 1
  | some exponent =>
    if a.value.natAbs ≤ 1 then .ok (if exponent % 2 = 0 then a.value * a.value else a.value)
    else if exponent < 64 then checkedWord (a.value.pow exponent)
    else .error .overflow

/-- Left shift. From 63 places on only zero can be shifted. -/
def shiftLeft (a b : Number) : Except EvalError Int :=
  match b.placeCount? with
  | none => .error .overflow
  | some amount =>
    if amount < 63 then checkedWord (a.value * Int.pow 2 amount)
    else if a.value = 0 then .ok 0
    else .error .overflow

/-- Arithmetic right shift. -/
def shiftRight (a b : Number) : Except EvalError Int :=
  match b.placeCount? with
  | none => .error .overflow
  | some amount =>
    if amount < 64 then .ok (a.value / Int.pow 2 amount)
    else .ok (if a.value < 0 then -1 else 0)

/-- Bitwise complement within the stated width. A number far below zero has a complement that is no
word, and traps. -/
def complement (n : Number) : Except EvalError Int :=
  if 8 ≤ n.width then .ok (-n.value - 1)
  else
    let value := fieldSpan n.width - 1 - n.value
    if minWord ≤ value ∧ value ≤ maxWord then .ok value else .error .trap

/-- The text of a number in its radix: hexadecimal and binary digits fill the stated width, and
a negative value is written in decimal. -/
def render (n : Number) : String :=
  if n.value < 0 then toString n.value
  else match n.radix with
    | .decimal => toString n.value
    | .hexadecimal => "0x" ++ paddedDigits 16 (2 * n.width) n.value.toNat
    | .binary => "0b" ++ paddedDigits 2 (8 * n.width) n.value.toNat
    | .octal => "0o" ++ paddedDigits 8 0 n.value.toNat

end Number

end Asm65816
