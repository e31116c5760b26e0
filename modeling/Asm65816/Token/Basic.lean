import Asm65816.Number
import Asm65816.Source.Span

/-!
# Tokens

The words of a source line: punctuation, quoted texts, numbers and names.
-/

namespace Asm65816

/-- Punctuation and operator signs. -/
inductive Punct where
  | leftParen
  | rightParen
  | leftBracket
  | rightBracket
  | comma
  | colon
  | ellipsis
  | hash
  | assign
  | plus
  | minus
  | starStar
  | star
  | slash
  | percent
  | ampersand
  | pipe
  | caret
  | tilde
  | shiftLeft
  | shiftRight
  | equal
  | notEqual
  | lessEqual
  | greaterEqual
  | less
  | greater
  | bang
  | ampersands
  | pipes
  deriving DecidableEq, Repr, Inhabited

namespace Punct

/-- The spelling of a sign; the first one where there are two. -/
def spelling : Punct → String
  | leftParen => "("
  | rightParen => ")"
  | leftBracket => "["
  | rightBracket => "]"
  | comma => ","
  | colon => ":"
  | ellipsis => "..."
  | hash => "#"
  | assign => "="
  | plus => "+"
  | minus => "-"
  | starStar => "**"
  | star => "*"
  | slash => "/"
  | percent => "%"
  | ampersand => "&"
  | pipe => "|"
  | caret => "^"
  | tilde => "~"
  | shiftLeft => "<<"
  | shiftRight => ">>"
  | equal => "=="
  | notEqual => "!="
  | lessEqual => "<="
  | greaterEqual => ">="
  | less => "<"
  | greater => ">"
  | bang => "!"
  | ampersands => "&&"
  | pipes => "||"

/-- Every sign. -/
def all : List Punct :=
  [leftParen, rightParen, leftBracket, rightBracket, comma, colon, ellipsis, hash, assign, plus,
    minus, starStar, star, slash, percent, ampersand, pipe, caret, tilde, shiftLeft, shiftRight,
    equal, notEqual, lessEqual, greaterEqual, less, greater, bang, ampersands, pipes]

/-- Every spelling with the sign it stands for; `<>` is another way to write `!=`. -/
def spellings : List (List Char × Punct) :=
  (['<', '>'], notEqual) :: all.map fun sign => (sign.spelling.toList, sign)

end Punct

/-- What a token is. -/
inductive TokenKind where
  | punct (sign : Punct)
  /-- A quoted text with its escapes resolved. -/
  | text (content : String) (petscii : Bool)
  | number (value : Number)
  | name (ident : String)
  deriving DecidableEq, Repr, Inhabited

namespace TokenKind

/-- How a syntax error names the token it met. -/
def describe : TokenKind → String
  | punct sign => s!"'{sign.spelling}'"
  | text _ _ => "string literal"
  | number _ => "number literal"
  | name ident => s!"name '{ident}'"

end TokenKind

/-- A token with its place and the text it was read from. -/
structure Token where
  kind : TokenKind
  span : Span
  text : String
  deriving Repr, Inhabited

end Asm65816
