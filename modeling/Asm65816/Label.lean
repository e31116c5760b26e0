import Asm65816.Source.Span
import Asm65816.Text.Letters

/-!
# Labels

A label has the address it was declared at. A local label, whose name starts with `@`, may be
declared again and again; a reference to it can say in which direction to look, and has to when
declarations lie on both sides.
-/

namespace Asm65816

/-- Where a label was declared; the addresses of a local label are in ascending order. -/
structure Label where
  addresses : List Int
  location : Location
  deriving Repr, Inhabited

/-- A use of a name that is still unbound, at the address of the statement that uses it. -/
structure Reference where
  name : String
  address : Int
  location : Location
  deriving Repr, Inhabited

/-- Where a reference looks for a declaration. -/
inductive Direction where
  | forward
  | backward
  /-- Wherever there is only one choice. -/
  | nearest
  deriving DecidableEq, Repr, Inhabited

/-- Whether a name belongs to a local label. -/
def isLocal (name : String) : Bool := beginsWith '@' name

/-- The label that a reference means and the direction its last character gives. -/
def splitDirection (name : String) : String × Direction :=
  if isLocal name then
    let stem := String.ofList name.toList.dropLast
    match name.toList.getLast? with
    | some '+' => (stem, .forward)
    | some '-' => (stem, .backward)
    | _ => (name, .nearest)
  else (name, .nearest)

/-- The name that a declaration of a local label declares: search directions do not count. -/
def declaredStem (name : String) : String :=
  String.ofList (name.toList.reverse.dropWhile fun c => c == '+' || c == '-').reverse

/-- Picks the declaration that a reference means, given the last declaration before those at hand.
Between two declarations, and on one that another follows, the direction decides; without one
the reference is ambiguous. -/
def resolveAfter (previous : Option Int) (reference : Int) (direction : Direction) :
    List Int → Option Int
  | [] => none
  | [only] =>
    match previous with
    | some before =>
      if reference < only then
        match direction with
        | .backward => some before
        | .forward => some only
        | .nearest => none
      else some only
    | none => some only
  | current :: next :: rest =>
    if current < reference then resolveAfter (some current) reference direction (next :: rest)
    else if reference < current then
      match previous, direction with
      | none, _ => some current
      | some before, .backward => some before
      | some _, .forward => some current
      | some _, .nearest => none
    else
      match direction with
      | .backward => some current
      | .forward => some next
      | .nearest => none

/-- Picks the declaration that a reference at `reference` means. -/
def resolveAddress (addresses : List Int) (reference : Int) (direction : Direction) : Option Int :=
  resolveAfter none reference direction addresses

/-- A list of addresses in ascending order with one more address in its place. -/
def insertAddress (address : Int) : List Int → List Int
  | [] => [address]
  | first :: rest =>
    if address ≤ first then address :: first :: rest else first :: insertAddress address rest

end Asm65816
