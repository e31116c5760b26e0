import Asm65816.Number
import Asm65816.Text.Letters

/-!
# Operand expressions

The tree of an operand as it is written, except that a name may carry the expression it was
bound to. A bound name keeps its own spelling, so that the text of an expression does not change
when its names receive values.
-/

namespace Asm65816

/-- Operators written in front of their operand. -/
inductive UnaryOp where
  | negate
  | plus
  /-- Bitwise complement within the operand's width. -/
  | complement
  | lowByte
  | highByte
  | logicalNot
  deriving DecidableEq, Repr, Inhabited

/-- Operators written between their operands. -/
inductive BinaryOp where
  | add
  | sub
  | mul
  | div
  | pow
  | mod
  | bitAnd
  | bitXor
  | bitOr
  | shiftLeft
  | shiftRight
  | equal
  | notEqual
  | less
  | greater
  | lessEqual
  | greaterEqual
  | logicalAnd
  | logicalOr
  deriving DecidableEq, Repr, Inhabited

/-- A reference by name. -/
structure Name where
  ident : String
  /-- Written `&name`: the full 24-bit address is meant, not the offset in its bank. -/
  long : Bool
  deriving DecidableEq, Repr, Inhabited

/-- An operand expression. -/
inductive Expr where
  | number (value : Number)
  /-- A name that has no value yet. -/
  | name (name : Name)
  /-- A name together with the expression it stands for. -/
  | bound (name : Name) (value : Expr)
  | unary (op : UnaryOp) (operand : Expr)
  | binary (op : BinaryOp) (left right : Expr)
  /-- `( ... )`, or `[ ... ]` when `long`. -/
  | group (items : List Expr) (long : Bool)
  | text (content : String) (petscii : Bool)
  /-- `#e`. -/
  | immediate (operand : Expr)
  deriving Inhabited, Repr

namespace UnaryOp

/-- The spelling of a prefix operator. -/
def symbol : UnaryOp → String
  | negate => "-"
  | plus => "+"
  | complement => "~"
  | lowByte => "<"
  | highByte => ">"
  | logicalNot => "!"

end UnaryOp

namespace BinaryOp

/-- The spelling of a binary operator. -/
def symbol : BinaryOp → String
  | add => "+"
  | sub => "-"
  | mul => "*"
  | div => "/"
  | pow => "**"
  | mod => "%"
  | bitAnd => "&"
  | bitXor => "^"
  | bitOr => "|"
  | shiftLeft => "<<"
  | shiftRight => ">>"
  | equal => "=="
  | notEqual => "!="
  | less => "<"
  | greater => ">"
  | lessEqual => "<="
  | greaterEqual => ">="
  | logicalAnd => "&&"
  | logicalOr => "||"

/-- Operators whose result may need fewer bytes than either operand states. -/
def canShrink : BinaryOp → Bool
  | bitAnd | shiftRight => true
  | _ => false

/-- Operators whose result is zero or one. -/
def isBoolean : BinaryOp → Bool
  | equal | notEqual | less | greater | lessEqual | greaterEqual | logicalAnd | logicalOr => true
  | _ => false

end BinaryOp

namespace Name

/-- The text of a reference. -/
def render (n : Name) : String := if n.long then "&" ++ n.ident else n.ident

end Name

namespace Expr

mutual

/-- The text of an expression as it would be written in a source line. -/
def render : Expr → String
  | .number n => n.render
  | .name n => n.render
  | .bound n _ => n.render
  | .unary op e => op.symbol ++ e.render
  | .binary op l r => l.render ++ " " ++ op.symbol ++ " " ++ r.render
  | .group items long =>
    let content := joinWith ", " (renderAll items)
    if long then "[" ++ content ++ "]" else "(" ++ content ++ ")"
  | .text content petscii =>
    if petscii then "p\"" ++ content ++ "\"" else "\"" ++ content ++ "\""
  | .immediate e => "#" ++ e.render

/-- The texts of the items of a group. -/
def renderAll : List Expr → List String
  | [] => []
  | e :: rest => e.render :: renderAll rest

end

/-- The form of an operand once bound names are followed to their values: a parameter that
carries `#1` or `(pointer)` reads as that operand. -/
def shape : Expr → Expr
  | .bound _ value => value.shape
  | e => e

/-- Whether the operand is a bare reference to `ident`, in any letter case. -/
def isName (ident : String) (e : Expr) : Bool :=
  match e.shape with
  | .name n => sameLetters n.ident ident
  | _ => false

/-- Whether the operand is a group. -/
def isGroup (e : Expr) : Bool :=
  match e.shape with
  | .group _ _ => true
  | _ => false

/-- Whether the operand is an immediate value. -/
def isImmediate (e : Expr) : Bool :=
  match e.shape with
  | .immediate _ => true
  | _ => false

end Expr

end Asm65816
