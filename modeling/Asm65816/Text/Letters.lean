/-!
# ASCII letter case

Statement names, mnemonics and register names are read without regard to ASCII letter case.
Only the letters `a` to `z` change; every other character stands for itself.
-/

namespace Asm65816

/-- `text` with its ASCII letters in upper case. -/
def upperAscii (text : String) : String := String.ofList (text.toList.map Char.toUpper)

/-- `text` with its ASCII letters in lower case. -/
def lowerAscii (text : String) : String := String.ofList (text.toList.map Char.toLower)

/-- Equality of texts up to ASCII letter case. -/
def sameLetters (a b : String) : Bool := a.toList.map Char.toUpper == b.toList.map Char.toUpper

/-- Whether the first character of `text` is `c`. -/
def beginsWith (c : Char) (text : String) : Bool := text.toList.head? == some c

/-- Texts put together with `separator` between neighbours. -/
def joinWith (separator : String) (texts : List String) : String := separator.intercalate texts

/-- `count` blanks. -/
def blanks (count : Nat) : String := String.ofList (List.replicate count ' ')

end Asm65816
