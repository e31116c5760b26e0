import Asm65816.Expr.Basic

/-!
# The value of an expression

Evaluation keeps the radix of the left operand and states a width with every result: masking
operators may shrink it, comparisons yield one byte, and every other operator states at least
as many bytes as its operands.
-/

namespace Asm65816

/-- What gives values to names that carry none: an identifier and whether the reference is long. -/
abbrev Scope := Name → Option Number

namespace Scope

/-- The scope in which no name has a value. -/
def empty : Scope := fun _ => none

end Scope

/-- A truth value as a word. -/
def truthWord (b : Bool) : Int := if b then 1 else 0

/-- A bitwise operation on the two's complement patterns of two words. -/
def bitwise (op : BitVec 64 → BitVec 64 → BitVec 64) (a b : Int) : Int :=
  (op (BitVec.ofInt 64 a) (BitVec.ofInt 64 b)).toInt

namespace UnaryOp

/-- The result of a prefix operator. The byte selectors and the logical `!` yield one byte; the
others keep the width of the operand. -/
def apply (op : UnaryOp) (n : Number) : Except EvalError Number :=
  match op with
  | negate => do return { n with value := ← checkedWord (-n.value) }
  | plus => .ok n
  | complement => do return { n with value := ← n.complement }
  | lowByte => .ok { n with value := n.value % 256, width := 1 }
  | highByte => .ok { n with value := n.value / 256 % 256, width := 1 }
  | logicalNot => .ok { n with value := truthWord (!n.isTrue), width := 1 }

end UnaryOp

namespace BinaryOp

/-- The value of a binary operator. -/
def applyValue (op : BinaryOp) (a b : Number) : Except EvalError Int :=
  match op with
  | add => a.add b
  | sub => a.sub b
  | mul => a.mul b
  | div => a.div b
  | pow => a.pow b
  | mod => a.rem b
  | bitAnd => .ok (bitwise (· &&& ·) a.value b.value)
  | bitXor => .ok (bitwise (· ^^^ ·) a.value b.value)
  | bitOr => .ok (bitwise (· ||| ·) a.value b.value)
  | shiftLeft => a.shiftLeft b
  | shiftRight => a.shiftRight b
  | equal => .ok (truthWord (a.value == b.value))
  | notEqual => .ok (truthWord (a.value != b.value))
  | less => .ok (truthWord (a.value < b.value))
  | greater => .ok (truthWord (a.value > b.value))
  | lessEqual => .ok (truthWord (a.value ≤ b.value))
  | greaterEqual => .ok (truthWord (a.value ≥ b.value))
  | logicalAnd => .ok (truthWord (a.isTrue && b.isTrue))
  | logicalOr => .ok (truthWord (a.isTrue || b.isTrue))

/-- The width a binary operator states for its result. -/
def resultWidth (op : BinaryOp) (a b : Number) (value : Int) : Nat :=
  if op.isBoolean then 1
  else if op.canShrink then requiredBytes value
  else max (requiredBytes value) (max a.width b.width)

/-- The result of a binary operator, written in the radix of its left operand. -/
def apply (op : BinaryOp) (a b : Number) : Except EvalError Number := do
  let value ← op.applyValue a b
  return ⟨value, a.radix, op.resultWidth a b value⟩

end BinaryOp

namespace Expr

mutual

/-- Evaluates an expression. A bound name has the value of its expression, any other name the
value that the scope gives it; a group has a value when it holds one item. -/
def collapse (scope : Scope) : Expr → Except EvalError Number
  | .number n => .ok n
  | .name n =>
    match scope n with
    | some value => .ok value
    | none => .error (.unresolvedName n.ident)
  | .bound _ value => value.collapse scope
  | .unary op e =>
    match e.collapse scope with
    | .ok n => op.apply n
    | .error cause => .error cause
  | .binary op l r =>
    match l.collapse scope with
    | .error cause => .error cause
    | .ok a =>
      match r.collapse scope with
      | .error cause => .error cause
      | .ok b => op.apply a b
  | .group items _ => collapseItems scope items
  | .text _ _ => .error .stringValue
  | .immediate e => e.collapse scope

/-- The value of a group, which has one when it holds exactly one item. -/
def collapseItems (scope : Scope) : List Expr → Except EvalError Number
  | [single] => single.collapse scope
  | items => .error (.groupValue items.length)

end

/-- The integer value of an expression. -/
def eval (scope : Scope) (e : Expr) : Except EvalError Int :=
  (e.collapse scope).map Number.value

/-- The value of an expression in which every name is bound. -/
def closedValue (e : Expr) : Except EvalError Number := e.collapse Scope.empty

end Expr

end Asm65816
