import Asm65816.Text.Letters
import Asm65816.Token.Basic

/-!
# What a line can go on with

A line is read from left to right without going back, so its first fault is the first token that
cannot continue what was read. What could have stood there depends on the place alone.
-/

namespace Asm65816

/-- The places of a line at which a token can be out of place. -/
inductive Expectation where
  | lineStart
  /-- Behind the name of a line's first statement. -/
  | firstName
  /-- Behind the name of a later statement. -/
  | laterName
  /-- Behind the comma between two operands of a statement. -/
  | nextOperand
  /-- Behind the sign of an equate, behind the opening of a group or a comma in it. -/
  | operand
  /-- Behind `#`, `!`, `&&` and `||`. -/
  | logical
  /-- Behind any other operator but `**`. -/
  | operator
  /-- Behind `**`. -/
  | power
  /-- Behind the `&` of a long name. -/
  | longName
  /-- Behind an operand of a statement. -/
  | afterOperand
  /-- Behind the value of an equate. -/
  | afterEquate
  /-- Behind an item of a group that `close` ends. -/
  | afterItem (close : Punct)
  | afterEllipsis
  /-- Behind the colon that ends a statement. -/
  | afterColon
  deriving DecidableEq, Repr, Inhabited

namespace Expectation

/-- The operators that can follow an operand, as a fault lists them. -/
def operators : List String := ["'**'", "something else", "'&'", "'^'", "'|'", "'&&'", "'||'"]

/-- What could stand at a place. -/
def alternatives : Expectation → List String
  | lineStart => ["name"]
  | firstName =>
    ["'='", "'...'", "'#'", "'!'", "something else", "expression", "':'", "end of input"]
  | laterName => ["'...'", "'#'", "'!'", "something else", "expression", "':'", "end of input"]
  | nextOperand => ["'#'", "'!'", "something else", "expression", "'...'"]
  | operand => ["'#'", "'!'", "something else", "expression"]
  | logical => ["'!'", "something else", "expression"]
  | operator => ["something else", "expression"]
  | power => ["expression"]
  | longName => ["something else"]
  | afterOperand => operators ++ ["','", "':'", "end of input"]
  | afterEquate => operators ++ ["end of input"]
  | afterItem close => operators ++ ["','", s!"'{close.spelling}'"]
  | afterEllipsis => ["':'", "end of input"]
  | afterColon => ["name", "end of input"]

/-- The alternatives as a phrase: `a`, `a or b`, or `a, b, or c`. -/
def describe (expected : Expectation) : String :=
  match expected.alternatives with
  | [] => "something else"
  | [single] => single
  | [first, second] => first ++ " or " ++ second
  | several => joinWith ", " several.dropLast ++ ", or " ++ several.getLastD ""

end Expectation

/-- A place and the token that was met there, if the line did not end. -/
structure SyntaxFault where
  expected : Expectation
  found : Option Token
  deriving Inhabited, Repr

namespace SyntaxFault

/-- The fault of the tokens that are left. -/
def facing (expected : Expectation) (tokens : List Token) : SyntaxFault := ⟨expected, tokens.head?⟩

/-- The wording of a fault. -/
def message (fault : SyntaxFault) : String :=
  let found := fault.found.elim "end of input" fun token => token.kind.describe
  s!"invalid syntax: expected {fault.expected.describe}, found {found}"

end SyntaxFault

end Asm65816
