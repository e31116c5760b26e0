import Asm65816.Expr.Value

/-!
# Binding names

Macro arguments, equates and the current address enter an expression by binding: each name
without a value may be given one, names inside bound values included. What is left unbound
refers to a label.
-/

namespace Asm65816

namespace Expr

mutual

/-- Offers every name that has no value yet to `choose`, from left to right, and binds those for
which it has one. -/
def bindNames {ε : Type} (choose : Name → Except ε (Option Expr)) : Expr → Except ε Expr
  | .number n => .ok (.number n)
  | .name n => do
    match ← choose n with
    | some value => return .bound n value
    | none => return .name n
  | .bound n value => do return .bound n (← value.bindNames choose)
  | .unary op e => do return .unary op (← e.bindNames choose)
  | .binary op l r => do
    let left ← l.bindNames choose
    let right ← r.bindNames choose
    return .binary op left right
  | .group items long => do return .group (← bindAll choose items) long
  | .text content petscii => .ok (.text content petscii)
  | .immediate e => do return .immediate (← e.bindNames choose)

/-- `bindNames` on every item of a group. -/
def bindAll {ε : Type} (choose : Name → Except ε (Option Expr)) :
    List Expr → Except ε (List Expr)
  | [] => .ok []
  | e :: rest => do
    let first ← e.bindNames choose
    let others ← bindAll choose rest
    return first :: others

end

/-- Gives `value` to a name that may already have one. The first value is kept; a later one is
refused when both evaluate and differ. Only a trap does not count as an expression without a
value. -/
def rebind (name : Name) (existing : Option Expr) (value : Expr) : Except EvalError Expr :=
  match existing with
  | none => .ok value
  | some first =>
    match first.eval Scope.empty, value.eval Scope.empty with
    | .ok a, .ok b => if a = b then .ok first else .error (.bindConflict name.ident a b)
    | .error .trap, _ | _, .error .trap => .error .trap
    | _, _ => .ok first

/-- One occurrence of a name. -/
structure Mention where
  ident : String
  isBound : Bool
  deriving DecidableEq, Repr

mutual

/-- Every occurrence of a name from left to right; a bound name comes before those of its value. -/
def mentions : Expr → List Mention
  | .number _ => []
  | .name n => [⟨n.ident, false⟩]
  | .bound n value => ⟨n.ident, true⟩ :: value.mentions
  | .unary _ e => e.mentions
  | .binary _ l r => l.mentions ++ r.mentions
  | .group items _ => mentionsAll items
  | .text _ _ => []
  | .immediate e => e.mentions

/-- The occurrences of names in the items of a group. -/
def mentionsAll : List Expr → List Mention
  | [] => []
  | e :: rest => e.mentions ++ mentionsAll rest

end

/-- The identifiers of an expression in the order of their first occurrence. -/
def idents (e : Expr) : List String := (e.mentions.map Mention.ident).eraseDups

/-- How often `ident` occurs, and how many of these occurrences are bound. -/
def useCounts (e : Expr) (ident : String) : Nat × Nat :=
  let uses := e.mentions.filter fun mention => mention.ident == ident
  (uses.length, (uses.filter Mention.isBound).length)

/-- The identifiers that still have an occurrence without a value. -/
def openIdents (e : Expr) : List String :=
  e.idents.filter fun ident =>
    e.mentions.any fun mention => mention.ident == ident && !mention.isBound

end Expr

end Asm65816
