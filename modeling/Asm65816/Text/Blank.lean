/-!
# Blank characters

The white space of Unicode: the characters that are dropped from the end of a line before it
is measured or shown, and from both ends of a number given on the command line.
-/

namespace Asm65816

/-- Whether Unicode counts `c` as white space. -/
def isBlank (c : Char) : Bool :=
  let code := c.toNat
  (0x09 ≤ code && code ≤ 0x0D) || code == 0x20 || code == 0x85 || code == 0xA0 ||
    code == 0x1680 || (0x2000 ≤ code && code ≤ 0x200A) || code == 0x2028 || code == 0x2029 ||
    code == 0x202F || code == 0x205F || code == 0x3000

/-- The text without the blanks at its end. -/
def trimEnd (text : List Char) : List Char := (text.reverse.dropWhile isBlank).reverse

/-- The text without the blanks at either end. -/
def trimBoth (text : List Char) : List Char := trimEnd (text.dropWhile isBlank)

/-- The number of UTF-8 bytes of a text. -/
def byteLength (text : List Char) : Nat := text.foldl (fun total c => total + c.utf8Size) 0

end Asm65816
