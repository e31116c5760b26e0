import Asm65816.Text.Letters

/-!
# PETSCII

Texts marked with a `p` are encoded for the shifted character set of Commodore machines: the two
letter cases move to ranges of their own, and every other byte stays.
-/

namespace Asm65816

/-- The UTF-8 bytes of a text. -/
def utf8Bytes (text : String) : List UInt8 := text.toUTF8.toList

/-- The code of a byte in the shifted set. -/
def petsciiByte (byte : UInt8) : UInt8 :=
  if 0x61 ≤ byte ∧ byte ≤ 0x7A then byte - 0x61 + 0x41
  else if 0x41 ≤ byte ∧ byte ≤ 0x5A then byte - 0x41 + 0xC1
  else byte

/-- A text in the shifted set. -/
def petscii (text : String) : List UInt8 := (utf8Bytes text).map petsciiByte

end Asm65816
