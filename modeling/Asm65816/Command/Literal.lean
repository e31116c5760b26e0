import Asm65816.Asset.Store
import Asm65816.Text.Digits

/-!
# Parts of a configuration

The names, bytes and texts that a configuration is made of. Blanks, `//` comments and nested
`/* */` comments may stand between any two parts.
-/

namespace Asm65816

/-- Reads a part of a configuration, if the text starts with one, and leaves the rest. -/
abbrev ConfigReader := StateT (List Char) Option

namespace ConfigReader

/-- The characters that divide parts and have no meaning. -/
def isSpace (c : Char) : Bool :=
  let code := c.toNat
  (0x09 ≤ code && code ≤ 0x0D) || code == 0x20 || code == 0x85 || code == 0x200E ||
    code == 0x200F || code == 0x2028 || code == 0x2029

/-- What a skipped character belongs to. -/
inductive Gap where
  | space
  | lineComment
  /-- A block comment inside `depth` others. -/
  | blockComment (depth : Nat)

/-- Drops blanks and comments. A block comment has to be closed. -/
def skipFrom : Gap → List Char → Option (List Char)
  | .space, '/' :: '/' :: rest => skipFrom .lineComment rest
  | .space, '/' :: '*' :: rest => skipFrom (.blockComment 0) rest
  | .space, '/' :: _ => none
  | .space, c :: rest => if isSpace c then skipFrom .space rest else some (c :: rest)
  | .space, [] => some []
  | .lineComment, c :: rest => skipFrom (if c = '\n' then .space else .lineComment) rest
  | .lineComment, [] => some []
  | .blockComment depth, '/' :: '*' :: rest => skipFrom (.blockComment (depth + 1)) rest
  | .blockComment 0, '*' :: '/' :: rest => skipFrom .space rest
  | .blockComment (depth + 1), '*' :: '/' :: rest => skipFrom (.blockComment depth) rest
  | .blockComment depth, _ :: rest => skipFrom (.blockComment depth) rest
  | .blockComment _, [] => none

/-- Drops the gap in front of the next part. -/
def skip : ConfigReader Unit := fun text => (skipFrom .space text).map fun rest => ((), rest)

/-- Takes a character if it comes next. -/
def take? (expected : Char) : ConfigReader Bool := fun text =>
  match text with
  | c :: rest => if c = expected then some (true, rest) else some (false, text)
  | [] => some (false, text)

/-- Takes a character that has to come next. -/
def expect (expected : Char) : ConfigReader Unit := do
  if !(← take? expected) then failure

/-- Takes characters that have to come next. -/
def expectAll (expected : String) : ConfigReader Unit := expected.toList.forM expect

/-- Whether a character can be part of a word. -/
def isWordChar (c : Char) : Bool := c.isAlphanum || c == '_'

/-- The longest run of characters of a kind that comes next, possibly none. -/
def longest (kind : Char → Bool) : ConfigReader (List Char) := fun text =>
  some (text.takeWhile kind, text.dropWhile kind)

/-- The longest word that comes next, possibly none. -/
def word : ConfigReader String := do return String.ofList (← longest isWordChar)

/-- Whether a word comes next. -/
def atWord : ConfigReader Bool := do return (← get).head?.any isWordChar

/-- A name: a word, in front of which `r#` may stand. -/
def name : ConfigReader String := do
  if let 'r' :: '#' :: rest := ← get then set rest
  let found ← word
  if found.isEmpty then failure else return found

/-- `true` or `false`. -/
def bool : ConfigReader Bool := do
  match ← word with
  | "true" => return true
  | "false" => return false
  | _ => failure

/-- What a letter behind a backslash stands for. -/
def escapeLetters : List (Char × Char) :=
  [('"', '"'), ('\\', '\\'), ('\x27', '\x27'), ('n', '\n'), ('r', '\r'), ('t', '\t'),
    ('0', '\x00')]

/-- The byte that two digits of base sixteen write. -/
def byteOfDigits? (upper lower : Char) : Option UInt8 := do
  return UInt8.ofNat (16 * (← digitValue? 16 upper) + (← digitValue? 16 lower))

/-- An ASCII character, plain or escaped, up to the quote behind it. -/
def quotedByte : ConfigReader UInt8
  | '\\' :: 'x' :: upper :: lower :: '\x27' :: rest =>
    (byteOfDigits? upper lower).map fun byte => (byte, rest)
  | '\\' :: letter :: '\x27' :: rest =>
    (escapeLetters.lookup letter).map fun meant => (UInt8.ofNat meant.toNat, rest)
  | c :: '\x27' :: rest =>
    if c = '\\' ∨ 0x80 ≤ c.toNat then none else some (UInt8.ofNat c.toNat, rest)
  | _ => none

/-- The base that a mark in front of the digits names. -/
def base : ConfigReader Nat := fun text =>
  match text with
  | '0' :: 'x' :: rest => some (16, rest)
  | '0' :: 'o' :: rest => some (8, rest)
  | '0' :: 'b' :: rest => some (2, rest)
  | _ => some (10, text)

/-- The digits of a byte. Underscores may stand behind the first digit, and the type `u8` behind
the last one unless the base is eight or sixteen. -/
def number (negative : Bool) : ConfigReader UInt8 := do
  let base ← base
  let digits ← longest fun c => isDigitIn 16 c || c == '_'
  let type ← word
  if !(type.isEmpty || (type == "u8" && (base == 2 || base == 10))) then failure
  else if digits.isEmpty || digits.head? == some '_' then failure
  else
    let digits := digits.filter (· != '_')
    let value := positionalValue base digits
    if !digits.all (isDigitIn base) || 255 < value || (negative && value != 0) then failure
    else return UInt8.ofNat value

/-- A byte: a number with or without a sign, or a character in quotes behind `b`. -/
def byte : ConfigReader UInt8 := do
  match ← get with
  | '+' :: rest =>
    set rest
    number false
  | '-' :: rest =>
    set rest
    number true
  | 'b' :: '\x27' :: rest =>
    set rest
    quotedByte
  | _ => number false

/-- The state inside quotes. -/
inductive Quoted where
  /-- Plain text behind the escaped bytes of a character that is not complete yet. -/
  | plain (bytes : List UInt8)
  /-- The digits of a code point, with their number and value so far. -/
  | codePoint (count value : Nat)

/-- The text up to the closing quote. Escaped bytes beyond ASCII make up a character together, in
at most four bytes of UTF-8. -/
def quotedFrom : Quoted → List Char → Option (List Char × List Char)
  | _, [] => none
  | .codePoint count value, '\x7d' :: rest =>
    if count = 0 ∨ ¬ value.isValidChar then none
    else (quotedFrom (.plain []) rest).map fun (text, left) => (Char.ofNat value :: text, left)
  | .codePoint count value, c :: rest =>
    match digitValue? 16 c with
    | some digit => if count < 6 then quotedFrom (.codePoint (count + 1) (16 * value + digit)) rest
      else none
    | none => none
  | .plain bytes, '\\' :: 'x' :: upper :: lower :: rest =>
    match byteOfDigits? upper lower with
    | some byte =>
      match textOfBytes? (bytes ++ [byte]) with
      | some meant => (quotedFrom (.plain []) rest).map fun (text, left) =>
        (meant.toList ++ text, left)
      | none => if bytes.length < 3 then quotedFrom (.plain (bytes ++ [byte])) rest else none
    | none => none
  | .plain (_ :: _), _ => none
  | .plain [], '"' :: rest => some ([], rest)
  | .plain [], '\\' :: 'u' :: '\x7b' :: rest => quotedFrom (.codePoint 0 0) rest
  | .plain [], '\\' :: letter :: rest =>
    match escapeLetters.lookup letter with
    | some meant => (quotedFrom (.plain []) rest).map fun (text, left) => (meant :: text, left)
    | none => none
  | .plain [], c :: rest => (quotedFrom (.plain []) rest).map fun (text, left) => (c :: text, left)

/-- The text up to a quote with `marks` hash signs behind it. Nothing is escaped in it. -/
def rawFrom (marks : Nat) : List Char → Option (List Char × List Char)
  | [] => none
  | c :: rest =>
    if c = '"' ∧ rest.take marks = List.replicate marks '#' then some ([], rest.drop marks)
    else (rawFrom marks rest).map fun (text, left) => (c :: text, left)

/-- A text in quotes. Behind `r` it is raw, with the same number of hash signs at either end. -/
def text : ConfigReader String := do
  if ← take? 'r' then
    let marks ← longest (· == '#')
    expect '"'
    return String.ofList (← rawFrom marks.length)
  else
    expect '"'
    return String.ofList (← quotedFrom (.plain []))

end ConfigReader

end Asm65816
