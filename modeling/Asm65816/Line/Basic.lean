import Asm65816.Expr.Basic
import Asm65816.Source.Span

/-!
# Source lines

A line either equates a name with a value, or holds statements divided by colons. A name in the
first column declares a label, whatever statements follow it.
-/

namespace Asm65816

/-- `name operand, operand, ...`. -/
structure Statement where
  name : Spanned String
  operands : List Expr
  /-- A final `...`, which has a meaning in a macro definition only. -/
  ellipsis : Bool
  span : Span
  deriving Inhabited, Repr

namespace Statement

/-- Whether the statement has the given name, in any letter case. -/
def isNamed (statement : Statement) (name : String) : Bool :=
  sameLetters statement.name.node name

end Statement

/-- What a line says. -/
inductive LineBody where
  /-- `name = value`. -/
  | equate (name : Spanned String) (value : Expr)
  /-- A label in the first column, if there is one, and the statements after it. -/
  | statements (label : Option (Spanned String)) (statements : List Statement)
  deriving Inhabited, Repr

/-- A line that holds at least one token, and where it stands. -/
structure Line where
  body : LineBody
  location : Location
  deriving Inhabited, Repr

end Asm65816
