import Asm65816.Flow.Frame
import Asm65816.Instruction
import Asm65816.Program.Build
import Asm65816.Segment.Basic
import Asm65816.Text.Case

/-!
# The layout of a program

What is known while a program is laid out: its segments with their labels, the place at which
the next statement goes, the register widths in effect and the open flow structures.
-/

namespace Asm65816

/-- What stays the same while a program is laid out. -/
structure Environment where
  macros : Table MacroDefinition
  equates : Table Number
  search : AssetSearch

/-- The state of the layout. -/
structure Layout where
  /-- The segments by name in upper case, in the order of their creation. -/
  segments : Table Segment
  /-- The names that are to become global, with the segment whose label is meant. -/
  requests : Table String
  /-- The global labels, with the segment that declares them. -/
  globals : Table String
  /-- The segment that code goes to. -/
  current : Option String
  address : Int
  widths : RegisterWidths
  flow : FlowState

namespace Layout

/-- Nothing laid out. -/
def empty : Layout := ⟨[], [], [], none, 0, ⟨false, false⟩, FlowState.empty⟩

/-- The current segment and the name it is found under. -/
def requireSegment (layout : Layout) : Except Fault (String × Segment) :=
  match layout.current with
  | none => .error .missingSegment
  | some key =>
    match layout.segments.get? key with
    | none => .error .missingSegment
    | some segment => .ok (key, segment)

/-- Replaces the segment found under `key`. -/
def setSegment (layout : Layout) (key : String) (segment : Segment) : Layout :=
  { layout with segments := layout.segments.alter key fun _ => segment }

/-- Adds a segment under its name in upper case. -/
def addSegment (layout : Layout) (segment : Segment) : Except Fault Layout :=
  let key := upperText segment.name
  if layout.segments.has key then .error (.segmentRedefinition key)
  else .ok { layout with segments := layout.segments.put key segment }

/-- Makes a segment the current one and goes on where it left off. -/
def enter (layout : Layout) (name : String) : Except Fault Layout :=
  let key := upperText name
  match layout.segments.get? key with
  | none => .error (.unknownDirective key)
  | some segment => .ok { layout with current := some key, address := segment.resume }

/-- Moves on by `size` bytes, which have to lie within the segment. -/
def advance (layout : Layout) (size : Nat) : Except Fault Layout := do
  let (key, segment) ← layout.requireSegment
  let address := layout.address + size
  if address ≤ segment.limit then
    return { layout.setSegment key { segment with resume := address } with address := address }
  else .error (.segmentOverflow segment.name)

/-- Switches the width of a register. -/
def setWidth (layout : Layout) (register : WidthRegister) (wide : Bool) : Layout :=
  match register with
  | .accumulator => { layout with widths := { layout.widths with accumulator := wide } }
  | .index => { layout with widths := { layout.widths with index := wide } }

/-- Records the names of an operand that are to be labels. -/
def refer (layout : Layout) (location : Location) (operand : Expr) : Except Fault Layout := do
  let (key, segment) ← layout.requireSegment
  let names := operand.openIdents.filter fun name => !isReserved name
  return layout.setSegment key
    (names.foldl (fun segment name => segment.refer name layout.address location) segment)

/-- Makes a label global when its segment or an earlier request asks for it. -/
def publish (layout : Layout) (key name : String) (globalAll : Bool) : Layout :=
  if globalAll || layout.requests.get? name == some key then
    { layout with globals := layout.globals.put name key }
  else layout

/-- Declares a label at the current address. A local label may be declared again. -/
def declareLabel (environment : Environment) (layout : Layout) (location : Location)
    (name : String) : Except Fault Layout := do
  let (key, segment) ← layout.requireSegment
  let stem := if isLocal name then declaredStem name else name
  let declared := (segment.label? stem).isSome
  if isLocal name && declared then
    return layout.setSegment key (segment.redeclare stem layout.address)
  else
    let isLabel := (declared && !isLocal stem) || layout.globals.has stem
    match nameFault? environment.equates environment.macros isLabel stem with
    | some fault => .error fault
    | none =>
      let segment := segment.declare stem layout.address location
      return (layout.setSegment key segment).publish key stem segment.globalAll

/-- Makes a name global for the current segment: at once when it is declared there, otherwise as
soon as it is. -/
def setGlobal (layout : Layout) (name : String) : Except Fault Layout := do
  let (key, segment) ← layout.requireSegment
  let layout := { layout with requests := layout.requests.put name key }
  if (segment.label? name).isSome then
    return { layout with globals := layout.globals.put name key }
  else return layout

/-- Makes every later label of the current segment global. -/
def setGlobalAll (layout : Layout) : Except Fault Layout := do
  let (key, segment) ← layout.requireSegment
  return layout.setSegment key { segment with globalAll := true }

/-- Opens a flow structure at the current address; its number. -/
def openFlow (layout : Layout) (location : Location) (kind : FrameKind) : Nat × Layout :=
  let (number, flow) := layout.flow.push ⟨kind, layout.address, location⟩
  (number, { layout with flow := flow })

/-- Closes the innermost flow structure; its number and frame. -/
def closeFlow (layout : Layout) (keyword : String) : Except Fault (Nat × FlowFrame × Layout) :=
  match layout.flow.pop? with
  | some (number, frame, flow) => .ok (number, frame, { layout with flow := flow })
  | none => .error (.unexpectedFlow keyword)

/-- Gives a flow structure another kind. -/
def setFlow (layout : Layout) (number : Nat) (kind : FrameKind) : Layout :=
  { layout with flow := layout.flow.setKind number kind }

/-- The layout before a second walk through the program: labels and flow structures are known,
and no code is placed. -/
def rewind (layout : Layout) : Layout :=
  { layout with
    segments := layout.segments.map fun (key, segment) =>
      (key, { segment.clear with resume := segment.start })
    current := none
    address := 0
    widths := ⟨false, false⟩ }

end Layout

end Asm65816
