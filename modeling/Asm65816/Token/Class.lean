import Asm65816.Token.Basic

/-!
# Token classes

Each class says how far it reaches into the text ahead of it. The class that reaches furthest
wins, so `<<` is one shift and not two comparisons, and a literal ends at the last character
that still belongs to it: `0xg` is the number `0` and then a name.
-/

namespace Asm65816

/-- The classes of text that a line is made of. -/
inductive TokenClass where
  /-- Spaces, tabs, carriage returns and form feeds. -/
  | blank
  /-- From `;` or `//` to the end of the line. -/
  | comment
  | punct
  /-- A quoted text. -/
  | text
  /-- A quoted text with a `p` in front. -/
  | petsciiText
  /-- `$` or `0x` and hexadecimal digits, in groups divided by colons. -/
  | hexadecimal
  /-- `&` or `0o` and octal digits. -/
  | octal
  /-- `%` or `0b` and binary digits or underscores. -/
  | binary
  | decimal
  | name
  /-- `@`, letters and digits, and an optional search direction. -/
  | localName
  /-- A backslash and a number or one of the letters `L`, `i` and `v`. -/
  | argument
  deriving DecidableEq, Repr, Inhabited

/-- The blanks between tokens. -/
def isSpacing (c : Char) : Bool := c == ' ' || c == '\t' || c == '\r' || c == '\x0c'

/-- The characters that end a line for the lexer. -/
def endsLine (c : Char) : Bool := c == '\r' || c == '\n'

/-- Letters, digits and the underscore. -/
def isNameChar (c : Char) : Bool := c.isAlphanum || c == '_'

/-- The characters a name can start with. -/
def startsName (c : Char) : Bool := c.isAlpha || c == '_' || c == '.'

/-- The number of characters at the start of a text that satisfy `accepts`. -/
def runLength (accepts : Char → Bool) (text : List Char) : Nat := (text.takeWhile accepts).length

/-- The length of a run that needs at least one character, with `extra` characters counted in
front of it; zero when the run is empty. -/
def runAfter (extra : Nat) (accepts : Char → Bool) (text : List Char) : Nat :=
  match runLength accepts text with
  | 0 => 0
  | count => extra + count

/-- Whether the text starts with a hexadecimal digit. -/
def startsHex : List Char → Bool
  | c :: _ => isDigitIn 16 c
  | [] => false

/-- The length of a run of hexadecimal digits in which single colons may stand between digits. -/
def hexGroupsLength : List Char → Nat
  | [] => 0
  | c :: rest =>
    if isDigitIn 16 c then 1 + hexGroupsLength rest
    else if c = ':' ∧ startsHex rest then 1 + hexGroupsLength rest
    else 0

/-- The distance to the end of the longest quoted text, closing quote included. A quote after a
backslash may end the text or belong to it, and belongs to it when a later quote can end it. -/
def quoteLength? (afterBackslash : Bool) : List Char → Option Nat
  | [] => none
  | c :: rest =>
    if endsLine c then none
    else if c = '"' then
      if afterBackslash then some (1 + (quoteLength? false rest).getD 0) else some 1
    else (quoteLength? (c == '\\') rest).map (1 + ·)

/-- The longest sign at the start of a text. -/
def longestPunct? (text : List Char) : Option (List Char × Punct) :=
  Punct.spellings.foldl (fun best candidate =>
    if candidate.1.isPrefixOf text ∧ (best.elim 0 fun b => b.1.length) < candidate.1.length
    then some candidate else best) none

namespace TokenClass

/-- Every class. -/
def all : List TokenClass :=
  [blank, comment, punct, text, petsciiText, hexadecimal, octal, binary, decimal, name, localName,
    argument]

/-- How many characters at the start of `input` belong to the class: the length of the longest
match, or zero when there is none. -/
def reach (kind : TokenClass) (input : List Char) : Nat :=
  match kind, input with
  | blank, chars => runLength isSpacing chars
  | comment, ';' :: rest => 1 + runLength (fun c => !endsLine c) rest
  | comment, '/' :: '/' :: rest => 2 + runLength (fun c => !endsLine c) rest
  | punct, chars => (longestPunct? chars).elim 0 fun found => found.1.length
  | .text, '"' :: rest => (quoteLength? false rest).elim 0 (1 + ·)
  | petsciiText, 'p' :: '"' :: rest => (quoteLength? false rest).elim 0 (2 + ·)
  | hexadecimal, '$' :: rest => if startsHex rest then 1 + hexGroupsLength rest else 0
  | hexadecimal, '0' :: 'x' :: rest => if startsHex rest then 2 + hexGroupsLength rest else 0
  | octal, '&' :: rest => runAfter 1 (isDigitIn 8) rest
  | octal, '0' :: 'o' :: rest => runAfter 2 (isDigitIn 8) rest
  | binary, '%' :: rest => runAfter 1 (fun c => isDigitIn 2 c || c == '_') rest
  | binary, '0' :: 'b' :: rest => runAfter 2 (fun c => isDigitIn 2 c || c == '_') rest
  | decimal, chars => runLength (isDigitIn 10) chars
  | name, c :: rest => if startsName c then 1 + runLength isNameChar rest else 0
  | localName, '@' :: rest =>
    match runLength isNameChar rest with
    | 0 => 0
    | count =>
      match rest.drop count with
      | '+' :: _ | '-' :: _ => 2 + count
      | _ => 1 + count
  | argument, '\\' :: rest =>
    match rest with
    | 'L' :: _ | 'i' :: _ | 'v' :: _ => 2
    | _ => runAfter 1 (isDigitIn 10) rest
  | _, _ => 0

/-- The class that reaches furthest into `input`, with its reach. -/
def furthest? (input : List Char) : Option (TokenClass × Nat) :=
  all.foldl (fun best kind =>
    let reached := kind.reach input
    if (best.elim 0 Prod.snd) < reached then some (kind, reached) else best) none

end TokenClass

end Asm65816
