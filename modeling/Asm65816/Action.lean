import Asm65816.Flow.Basic
import Asm65816.Table

/-!
# Actions

What the statements of a program ask for, once their directives are told apart. Macro calls,
conditional blocks and loops hold further actions and expand into copies of them; everything
else is an operation that stands for itself.
-/

namespace Asm65816

/-- The size of the items of a data directive. -/
inductive DataWidth where
  | byte
  | word
  | long
  deriving DecidableEq, Repr, Inhabited

namespace DataWidth

/-- Bytes per item. -/
def bytes : DataWidth → Nat
  | byte => 1
  | word => 2
  | long => 3

/-- The name of the directive. -/
def directive : DataWidth → String
  | byte => "DB"
  | word => "DW"
  | long => "DL"

end DataWidth

/-- The registers whose width a program can switch. -/
inductive WidthRegister where
  | accumulator
  | index
  deriving DecidableEq, Repr, Inhabited

/-- An action that holds no others. -/
inductive Operation where
  | createSegment (name : String) (start size fileOffset : Int)
  /-- Goes on where the segment of this name left off. -/
  | changeSegment (name : String)
  | setOrigin (operand : Expr)
  | setWidth (register : WidthRegister) (wide : Bool)
  | declareLabel (name : String)
  | instruction (mnemonic : String) (operands : List Expr)
  | data (width : DataWidth) (operands : List Expr)
  /-- `.FILL count, byte`, or `.FILLW count, word` when `wide`. -/
  | fill (wide : Bool) (count value : Expr)
  | includeBinary (path : String)
  /-- Marks where the lines of an included source start. -/
  | includeSource (path : String)
  | setGlobal (name : String)
  | setGlobalAll
  | flow (statement : FlowStatement)
  deriving Inhabited, Repr

mutual

/-- One step of a program, with the statement it comes from. -/
inductive Action where
  | operation (operation : Operation) (location : Location)
  | callMacro (name : String) (operands : List Expr) (location : Location)
  /-- Expands to the first arm whose condition holds. -/
  | conditional (arms : List ConditionalArm) (location : Location)
  /-- Repeats its body for every further argument of the macro around it. -/
  | argumentLoop (body : List Action) (location : Location)

/-- An arm of a conditional block; the one without a condition always holds. -/
inductive ConditionalArm where
  | mk (condition : Option Expr) (body : List Action) (location : Location)

end

/-- A macro. -/
structure MacroDefinition where
  parameters : List String
  /-- Whether calls may pass further arguments. -/
  variadic : Bool
  body : List Action

end Asm65816
