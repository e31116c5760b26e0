import Asm65816.Diagnostic.Basic
import Asm65816.Text.Blank
import Asm65816.Token.Class

/-!
# Reading tokens

A line is cut into pieces from left to right, each as long as its class allows. Blanks and
comments are dropped; text that no class takes, and numbers that cannot be represented, are
reported without stopping the reading, so that one line can report several errors.
-/

namespace Asm65816

/-- What a piece of a line amounts to. -/
inductive Reading where
  /-- Blanks and comments. -/
  | skipped
  | token (kind : TokenKind)
  /-- Text that is no token. -/
  | invalid
  deriving DecidableEq, Repr, Inhabited

/-- A number, provided that its value is a 64-bit word and its width fits a byte. -/
def readNumber (value : Nat) (radix : Radix) (width : Nat) : Reading :=
  if (value : Int) ≤ maxWord ∧ width ≤ 255 then .token (.number ⟨value, radix, width⟩)
  else .invalid

/-- The digits of a literal behind a mark of one or two characters. -/
def afterMark (text : List Char) : List Char :=
  match text with
  | '0' :: _ :: digits => digits
  | _ :: digits => digits
  | [] => []

/-- A quoted content with `\"` read as a quote. Other backslashes stay. -/
def unescapeQuotes : List Char → List Char
  | '\\' :: '"' :: rest => '"' :: unescapeQuotes rest
  | c :: rest => c :: unescapeQuotes rest
  | [] => []

/-- The content of a quoted text whose opening mark has `opening` characters. -/
def quotedContent (opening : Nat) (text : List Char) : String :=
  String.ofList (unescapeQuotes ((text.drop opening).dropLast))

namespace TokenClass

/-- What a piece of the class means. -/
def read (kind : TokenClass) (text : List Char) : Reading :=
  match kind with
  | blank | comment => .skipped
  | punct =>
    match longestPunct? text with
    | some (_, sign) => .token (.punct sign)
    | none => .invalid
  | .text => .token (.text (quotedContent 1 text) false)
  | petsciiText => .token (.text (quotedContent 2 text) true)
  | hexadecimal =>
    let digits := (afterMark text).filter (· != ':')
    readNumber (positionalValue 16 digits) .hexadecimal ((digits.length + 1) / 2)
  | octal =>
    let value := positionalValue 8 (afterMark text)
    readNumber value .octal (requiredBytes value)
  | binary =>
    let digits := (afterMark text).filter (· != '_')
    if digits.isEmpty then .invalid
    else readNumber (positionalValue 2 digits) .binary ((digits.length + 7) / 8)
  | decimal =>
    let value := positionalValue 10 text
    readNumber value .decimal (requiredBytes value)
  | name | localName | argument => .token (.name (String.ofList text))

end TokenClass

/-- The length of the next piece of a text and what it amounts to. Where no class matches, one
character is invalid, and an open quote with all that follows it on the line. -/
def nextPiece (text : List Char) : Nat × Reading :=
  match TokenClass.furthest? text with
  | some (kind, reached) => (reached, kind.read (text.take reached))
  | none =>
    match text with
    | '"' :: rest => (1 + runLength (fun c => !endsLine c) rest, .invalid)
    | _ => (1, .invalid)

/-- A character as it is shown in a message: control characters, quotes and everything beyond
ASCII are escaped. -/
def escapedChar (c : Char) : List Char :=
  match c with
  | '\t' => ['\\', 't']
  | '\r' => ['\\', 'r']
  | '\n' => ['\\', 'n']
  | '\'' => ['\\', '\'']
  | '"' => ['\\', '"']
  | '\\' => ['\\', '\\']
  | _ =>
    if 0x20 ≤ c.toNat ∧ c.toNat ≤ 0x7E then [c]
    else "\\u\x7b".toList ++ Nat.toDigits 16 c.toNat ++ ['\x7d']

/-- The report on a piece that is no token. -/
def unexpectedToken (span : Span) (text : List Char) : Diagnostic :=
  let shown := String.ofList (text.flatMap escapedChar)
  (Diagnostic.errorAt span s!"unexpected token '{shown}'").withHelp "remove or fix this token"

/-- The tokens and reports of a text that starts at byte `offset`. The first `pending` characters
belong to the piece before and are passed over. -/
def scan (source : Nat) (offset pending : Nat) : List Char → List (Except Diagnostic Token)
  | [] => []
  | c :: rest =>
    let next := offset + c.utf8Size
    match pending with
    | count + 1 => scan source next count rest
    | 0 =>
      let (length, reading) := nextPiece (c :: rest)
      let text := (c :: rest).take length
      let span : Span := ⟨source, offset, offset + byteLength text⟩
      let others := scan source next (length - 1) rest
      match reading with
      | .skipped => others
      | .token kind => .ok ⟨kind, span, String.ofList text⟩ :: others
      | .invalid => .error (unexpectedToken span text) :: others

/-- The errors of a list of results. -/
def failures {ε α : Type} (results : List (Except ε α)) : List ε :=
  results.filterMap fun
    | .error cause => some cause
    | .ok _ => none

/-- The tokens of one line that starts at byte `offset` of its source, or the reports on all its
pieces that are no tokens. -/
def lexLine (source offset : Nat) (text : List Char) : Except (List Diagnostic) (List Token) :=
  let results := scan source offset 0 text
  match failures results with
  | [] => .ok (results.filterMap Except.toOption)
  | reports => .error reports

end Asm65816
