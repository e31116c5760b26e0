import Asm65816.Expr.Value

/-!
# Width estimates

How many bytes an operand may need, judged before labels have addresses. An unbound name counts
as two bytes, a long one as three; strings and groups of several items have no width. An operand
that would trap is estimated like one without a value, and traps where its bytes are made.
-/

namespace Asm65816

namespace BinaryOp

/-- The width of a binary operator that cannot be evaluated yet, from the estimates of its
operands and the value of the right one where that is known. -/
def guessWidth (op : BinaryOp) (left : Nat) (right : Option Nat) (rightValue : Option Int) :
    Option Nat :=
  match op with
  | add | sub | mul | pow | bitXor | bitOr => right.map (max left)
  | div => some left
  | mod =>
    match rightValue with
    | some value => some (requiredBytes (value - 1))
    | none => some left
  | bitAnd => right.map (min left)
  | shiftLeft =>
    match rightValue with
    | some value =>
      if 0 < value then some (min (left + ((min value 64 + 7) / 8).toNat) 8) else some left
    | none => some left
  | shiftRight =>
    match rightValue with
    | some value =>
      if 0 < value then some (max (left - (min (value / 8) 8).toNat) 1) else some left
    | none => some left
  | _ => some 1

end BinaryOp

namespace Expr

mutual

/-- The estimated width of an operand, or `none` when it has no width. -/
def guessWidth : Expr → Option Nat
  | .number n => some n.width
  | .name n => some (if n.long then 3 else 2)
  | .bound n value => value.guessWidth.map fun width => if n.long then max width 3 else width
  | .unary op e =>
    match op with
    | .negate | .plus | .complement => e.guessWidth
    | .lowByte | .highByte | .logicalNot => some 1
  | .binary op l r =>
    match (Expr.binary op l r).closedValue with
    | .ok n => some n.width
    | .error _ =>
      if op.isBoolean then some 1
      else match l.guessWidth with
        | none => none
        | some left =>
          op.guessWidth left r.guessWidth (r.closedValue.toOption.map Number.value)
  | .group items _ => guessItems items
  | .text _ _ => none
  | .immediate e => e.guessWidth

/-- The estimated width of a group, which has one when it holds exactly one item. -/
def guessItems : List Expr → Option Nat
  | [single] => single.guessWidth
  | _ => none

end

/-- Whether the operand is known to need at most `limit` bytes. -/
def fits (limit : Nat) (e : Expr) : Bool :=
  match e.guessWidth with
  | some width => width ≤ limit
  | none => false

end Expr

end Asm65816
