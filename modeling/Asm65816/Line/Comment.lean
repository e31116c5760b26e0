/-!
# Block comments

`/* ... */` is blanked out before lines are read, byte for byte and with its newlines kept, so
that every later offset is an offset into the text as it was written. Quoted texts and line
comments hide the signs inside them.
-/

namespace Asm65816

/-- What the text at hand belongs to. -/
inductive CommentState where
  | code
  | quoted
  | lineComment
  /-- A block comment opened at the given byte offset. -/
  | block (opener : Nat)
  deriving DecidableEq, Repr, Inhabited

/-- A character of a block comment as it is left in the text: newlines stay, anything else
becomes one blank for each of its bytes. -/
def blankedChar (c : Char) : List Char :=
  if c = '\n' then ['\n'] else List.replicate c.utf8Size ' '

/-- Blanks the block comments of a text that starts at byte `offset`. The second component is the
offset of a comment that nothing closes. -/
def stripFrom : CommentState → Nat → List Char → List Char × Option Nat
  | .block opener, _, [] => ([], some opener)
  | _, _, [] => ([], none)
  | .code, offset, '"' :: rest =>
    let (chars, opener) := stripFrom .quoted (offset + 1) rest
    ('"' :: chars, opener)
  | .code, offset, ';' :: rest =>
    let (chars, opener) := stripFrom .lineComment (offset + 1) rest
    (';' :: chars, opener)
  | .code, offset, '/' :: '/' :: rest =>
    let (chars, opener) := stripFrom .lineComment (offset + 2) rest
    ('/' :: '/' :: chars, opener)
  | .code, offset, '/' :: '*' :: rest =>
    let (chars, opener) := stripFrom (.block offset) (offset + 2) rest
    (' ' :: ' ' :: chars, opener)
  | .code, offset, c :: rest =>
    let (chars, opener) := stripFrom .code (offset + c.utf8Size) rest
    (c :: chars, opener)
  | .quoted, offset, '"' :: rest =>
    let (chars, opener) := stripFrom .code (offset + 1) rest
    ('"' :: chars, opener)
  | .quoted, offset, '\n' :: rest =>
    let (chars, opener) := stripFrom .code (offset + 1) rest
    ('\n' :: chars, opener)
  | .quoted, offset, '\\' :: '"' :: rest =>
    let (chars, opener) := stripFrom .quoted (offset + 2) rest
    ('\\' :: '"' :: chars, opener)
  | .quoted, offset, c :: rest =>
    let (chars, opener) := stripFrom .quoted (offset + c.utf8Size) rest
    (c :: chars, opener)
  | .lineComment, offset, '\n' :: rest =>
    let (chars, opener) := stripFrom .code (offset + 1) rest
    ('\n' :: chars, opener)
  | .lineComment, offset, c :: rest =>
    let (chars, opener) := stripFrom .lineComment (offset + c.utf8Size) rest
    (c :: chars, opener)
  | .block _, offset, '*' :: '/' :: rest =>
    let (chars, opener) := stripFrom .code (offset + 2) rest
    (' ' :: ' ' :: chars, opener)
  | .block opener, offset, c :: rest =>
    let (chars, unclosed) := stripFrom (.block opener) (offset + c.utf8Size) rest
    (blankedChar c ++ chars, unclosed)

/-- A text with its block comments blanked, and the offset of one that nothing closes. -/
def stripBlockComments (text : List Char) : List Char × Option Nat := stripFrom .code 0 text

end Asm65816
