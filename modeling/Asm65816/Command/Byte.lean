import Asm65816.Text.Blank
import Asm65816.Text.Digits
import Asm65816.Text.Letters

/-!
# Bytes on the command line

A byte is given in decimal or behind `0x`, `0o` or `0b`, in either letter case and with blanks
around it.
-/

namespace Asm65816

/-- Why a text is no number of 32 bits. -/
inductive NumeralError where
  | empty
  | invalidDigit
  | tooLarge
  deriving DecidableEq, Repr, Inhabited

namespace NumeralError

/-- The wording of a numeral that cannot be read. -/
def message : NumeralError → String
  | empty => "cannot parse integer from empty string"
  | invalidDigit => "invalid digit found in string"
  | tooLarge => "number too large to fit in target type"

end NumeralError

/-- Reads digits behind `total`. Digits are checked one by one, so that of two faults the first
one counts. -/
def readDigits (base : Nat) (total : Nat) : List Char → Except NumeralError Nat
  | [] => .ok total
  | c :: rest =>
    match digitValue? base c with
    | none => .error .invalidDigit
    | some digit =>
      let next := total * base + digit
      if next < 0x100000000 then readDigits base next rest else .error .tooLarge

/-- An unsigned number of 32 bits, with an optional plus sign. -/
def readNumeral (base : Nat) (text : List Char) : Except NumeralError Nat :=
  match text with
  | [] => .error .empty
  | ['+'] | ['-'] => .error .invalidDigit
  | '+' :: digits => readDigits base 0 digits
  | digits => readDigits base 0 digits

/-- Why a text is no byte. -/
inductive ByteError where
  | numeral (text : String) (cause : NumeralError)
  | outOfRange (text : String)
  deriving DecidableEq, Repr

namespace ByteError

/-- The wording of a byte that cannot be read. -/
def message : ByteError → String
  | numeral text cause => s!"invalid number '{text}': " ++ cause.message
  | outOfRange text => "value must be 0 to 255 (0xFF), got " ++ text

end ByteError

/-- The digits of a numeral and their base. -/
def splitBase (text : List Char) : List Char × Nat :=
  match text with
  | '0' :: 'x' :: digits => (digits, 16)
  | '0' :: 'o' :: digits => (digits, 8)
  | '0' :: 'b' :: digits => (digits, 2)
  | digits => (digits, 10)

/-- Reads a byte. -/
def readByte (text : String) : Except ByteError UInt8 :=
  let (digits, base) := splitBase ((trimBoth text.toList).map Char.toLower)
  match readNumeral base digits with
  | .error cause => .error (.numeral text cause)
  | .ok value => if value < 256 then .ok (UInt8.ofNat value) else .error (.outOfRange text)

end Asm65816
