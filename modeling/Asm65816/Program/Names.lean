import Asm65816.Action
import Asm65816.Expr.Binding
import Asm65816.Label
import Asm65816.Machine.Opcode

/-!
# Names

Which names a program may define, and what the names in an operand stand for: an argument of
the innermost macro call, the current address, an equate, or else a label.
-/

namespace Asm65816

/-- Registers, the current address and the flow keywords, which nothing can be named. -/
def reservedNames : List String :=
  ["A", "X", "Y", "S", "."] ++ FlowStatement.keywords

/-- Whether a name is reserved, in any letter case. -/
def isReserved (name : String) : Bool := reservedNames.any fun reserved => sameLetters reserved name

/-- Why a name cannot be defined, if it cannot. `isLabel` says whether a label has it already. -/
def nameFault? (equates : Table Number) (macros : Table MacroDefinition) (isLabel : Bool)
    (name : String) : Option Fault :=
  if beginsWith '.' name then some (.reservedName name .period)
  else if isLabel then some (.nameTaken name .label)
  else if isReserved name then some (.reservedName name .word)
  else if equates.has name then some (.nameTaken name .equate)
  else if Opcode.isMnemonic name then some (.reservedName name .mnemonic)
  else if macros.has name then some (.nameTaken name .macroName)
  else none

/-- One macro call that is being expanded. -/
structure MacroCall where
  name : String
  parameters : List String
  variadic : Bool
  arguments : List Expr
  /-- Index and value of the argument that the innermost loop is at. -/
  round : Option (Nat × Expr)

namespace MacroCall

/-- The arguments beyond the named parameters. -/
def furtherArguments (call : MacroCall) : List Expr := call.arguments.drop call.parameters.length

/-- What a name means inside the macro: a parameter, `\L` for the number of further arguments,
`\0`, `\1`, ... for these arguments, and `\i` and `\v` for the round of a loop. -/
def argument (call : MacroCall) (ident : String) : Except Fault (Option Expr) :=
  match ident.toList with
  | '\\' :: special =>
    if !call.variadic then .error (.invalidName .notVariadic)
    else match special with
      | ['L'] => .ok (some (.number (.ofInt call.furtherArguments.length)))
      | ['i'] =>
        match call.round with
        | some (index, _) => .ok (some (.number (.ofInt index)))
        | none => .error (.invalidName (.outsideLoop "i"))
      | ['v'] =>
        match call.round with
        | some (_, value) => .ok (some value)
        | none => .error (.invalidName (.outsideLoop "v"))
      | digits => .ok call.furtherArguments[positionalValue 10 digits]?
  | _ =>
    match call.parameters.idxOf? ident with
    | some position => .ok call.arguments[position]?
    | none => .ok none

end MacroCall

/-- Binds the arguments of the innermost call in an operand. -/
def bindArguments (calls : List MacroCall) (operand : Expr) : Except Fault Expr :=
  match calls with
  | [] => .ok operand
  | call :: _ => operand.bindNames fun name => call.argument name.ident

/-- The current address as a number of at least two bytes. -/
def addressNumber (address : Int) : Number :=
  .ofHex address (max (requiredBytes address) 2)

/-- Binds the current address and the equates in an operand, and every other name to `fallback`
when there is one. -/
def bindEquates (equates : Table Number) (address : Int) (fallback : Option Number)
    (operand : Expr) : Except Fault Expr :=
  operand.bindNames fun name =>
    let value :=
      if name.ident = "." then some (addressNumber address)
      else (equates.get? name.ident).or fallback
    .ok (value.map Expr.number)

end Asm65816
