import Asm65816.Flow.Step
import Asm65816.Program.Layout

/-!
# Laying out a program

The first walk through a program expands macro calls, conditional blocks and loops, gives every
statement its address and size, and records the labels. What it leaves behind is the sequence of
steps that the second walk turns into bytes.
-/

namespace Asm65816

/-- An operation whose place and size are settled. -/
inductive PlacedOperation where
  | createSegment (name : String) (start size fileOffset : Int)
  | changeSegment (name : String)
  | setOrigin (address : Int)
  | setWidth (register : WidthRegister) (wide : Bool)
  | declareLabel (name : String)
  | instruction (encoding : Encoding)
  | data (width : DataWidth) (operands : List Expr)
  | fill (wide : Bool) (count : Nat) (value : Expr)
  | includeBinary (path : String) (bytes : List UInt8)
  | includeSource (path : String)
  /-- Has done its work in the first walk. -/
  | settled
  /-- A flow statement and the number of its frame. -/
  | flow (step : FlowStep) (frame : Nat)
  deriving Inhabited, Repr

/-- One step of a program that is laid out. -/
inductive Step where
  | operation (operation : PlacedOperation) (size : Nat) (location : Location)
  /-- The steps of an expansion, under the name of the macro if it is a call. -/
  | expansion (call : Option String) (steps : List Step) (location : Location)

/-- Prepares an operand: arguments, equates and the current address are bound, and every other
name is recorded as a reference to a label. -/
def resolveOperand (environment : Environment) (calls : List MacroCall) (location : Location)
    (layout : Layout) (operand : Expr) : Except Fault (Expr × Layout) := do
  let bound ← bindArguments calls operand
  let bound ← bindEquates environment.equates layout.address none bound
  return (bound, ← layout.refer location bound)

/-- `resolveOperand` on several operands in turn. -/
def resolveOperands (environment : Environment) (calls : List MacroCall) (location : Location) :
    List Expr → Layout → Except Fault (List Expr × Layout)
  | [], layout => .ok ([], layout)
  | operand :: rest, layout => do
    let (first, layout) ← resolveOperand environment calls location layout operand
    let (others, layout) ← resolveOperands environment calls location rest layout
    return (first :: others, layout)

/-- One operand of a data directive and its size. Texts count their bytes and are allowed among
single bytes only. -/
def placeDatum (environment : Environment) (calls : List MacroCall) (location : Location)
    (width : DataWidth) (layout : Layout) (operand : Expr) :
    Except Fault (Expr × Nat × Layout) :=
  match operand with
  | .text content petscii =>
    if width = .byte then .ok (.text content petscii, content.utf8ByteSize, layout)
    else .error (.invalidOperand (.textInData width.directive))
  | operand => do
    let (resolved, layout) ← resolveOperand environment calls location layout operand
    return (resolved, width.bytes, layout)

/-- The operands of a data directive and their size together. -/
def placeData (environment : Environment) (calls : List MacroCall) (location : Location)
    (width : DataWidth) : List Expr → Layout → Except Fault (List Expr × Nat × Layout)
  | [], layout => .ok ([], 0, layout)
  | operand :: rest, layout => do
    let (first, size, layout) ← placeDatum environment calls location width layout operand
    let (others, more, layout) ← placeData environment calls location width rest layout
    return (first :: others, size + more, layout)

/-- The name of a fill directive. -/
def fillDirective (wide : Bool) : String := if wide then "FILLW" else "FILL"

/-- The number of items of a fill directive, which must be known and must not be negative; the
bytes of all items together have to be a 64-bit number. -/
def fillCount (wide : Bool) (count : Expr) : Except Fault Nat :=
  let invalid := Fault.invalidOperand (.fillOperands (fillDirective wide))
  match count.closedValue with
  | .ok number =>
    if 0 ≤ number.value ∧ (wide → number.value * 2 ≤ maxWord) then .ok number.value.toNat
    else .error invalid
  | .error cause => .error (Fault.unlessTrap cause invalid)

/-- The operand of `.ORG`, in which `START` names the start of the current segment. -/
def originValue (environment : Environment) (calls : List MacroCall) (start : Int)
    (operand : Expr) : Except Fault Int := do
  let bound ← bindArguments calls operand
  let bound ← bound.bindNames fun name =>
    if sameLetters name.ident "START" then .ok (some (.number (addressNumber start)))
    else match environment.equates.get? name.ident with
      | some value => .ok (some (.number value))
      | none => .error (.notEvaluatable name.ident)
  match bound.closedValue with
  | .ok number => return number.value
  | .error cause => .error (Fault.unlessTrap cause (.invalidOperand .originOperand))

/-- The value of a `CASE`, bound and evaluated. -/
def caseValue (environment : Environment) (calls : List MacroCall) (address : Int)
    (operand : Expr) : Except Fault (Expr × Number) := do
  let bound ← (bindArguments calls operand).mapError Fault.invalidCase
  let bound ← (bindEquates environment.equates address none bound).mapError Fault.invalidCase
  match bound.closedValue with
  | .ok number => return (bound, number)
  | .error cause => .error (Fault.unlessTrap cause (.invalidCase (.eval cause)))

/-- The bytes that compare a register with a value and branch on. -/
def caseSize (wide : Bool) (number : Number) : Except Fault Nat :=
  if wide ∧ number.width ≤ 2 then .ok 5
  else if number.width ≤ 1 then .ok 4
  else .error (.tooLarge .caseValue)

/-- Lays out a flow statement: its step, the number of its frame and its size. -/
def placeFlow (environment : Environment) (calls : List MacroCall) (location : Location)
    (layout : Layout) (statement : FlowStatement) :
    Except Fault (FlowStep × Nat × Nat × Layout) := do
  let _ ← layout.requireSegment
  let address := layout.address
  match statement with
  | .ifStart condition =>
    let (frame, layout) := layout.openFlow location (.ifFrame condition none none)
    return (.ifStart condition, frame, 2, layout)
  | .elseStart =>
    let (opener, frame, layout) ← layout.closeFlow "ELSE"
    match frame.kind with
    | .ifFrame condition _ endAt =>
      let layout := layout.setFlow opener (.ifFrame condition (some address) endAt)
      let (frame, layout) := layout.openFlow location (.elseFrame condition none)
      return (.elseStart condition, frame, 2, layout)
    | _ => .error (.unmatchedFlow "ELSE" "IF")
  | .ifEnd =>
    let (opener, frame, layout) ← layout.closeFlow "ENDIF"
    match frame.kind with
    | .ifFrame condition elseAt _ =>
      return (.ifEnd condition, opener, 0,
        layout.setFlow opener (.ifFrame condition elseAt (some address)))
    | .elseFrame condition _ =>
      return (.ifEnd condition, opener, 0,
        layout.setFlow opener (.elseFrame condition (some address)))
    | _ => .error (.unmatchedFlow "ENDIF" "IF")
  | .loopStart =>
    let (frame, layout) := layout.openFlow location .loopFrame
    return (.loopStart, frame, 0, layout)
  | .loopUntil condition =>
    let (opener, frame, layout) ← layout.closeFlow "UNTIL"
    match frame.kind with
    | .loopFrame => return (.loopUntil condition, opener, 2, layout)
    | _ => .error (.unmatchedFlow "UNTIL" "DO")
  | .loopForever =>
    let (opener, frame, layout) ← layout.closeFlow "FOREVER"
    match frame.kind with
    | .loopFrame =>
      let short := frame.opened - (address + 2)
      let long := frame.opened - (address + 3)
      if -128 ≤ short ∧ short ≤ 127 then return (.loopForever false, opener, 2, layout)
      else if -32768 ≤ long ∧ long ≤ 32767 then return (.loopForever true, opener, 3, layout)
      else .error (.branch (.structureSize "DO/FOREVER"))
    | _ => .error (.unmatchedFlow "FOREVER" "DO")
  | .whileStart condition =>
    let (frame, layout) := layout.openFlow location (.whileFrame condition none)
    return (.whileStart condition, frame, 2, layout)
  | .whileEnd =>
    let (opener, frame, layout) ← layout.closeFlow "ENDWHILE"
    match frame.kind with
    | .whileFrame condition _ =>
      return (.whileEnd condition, opener, 2,
        layout.setFlow opener (.whileFrame condition (some address)))
    | _ => .error (.unmatchedFlow "ENDWHILE" "WHILE")
  | .switchStart register =>
    let (frame, layout) := layout.openFlow location (.switchFrame register none)
    return (.switchStart register, frame, 0, layout)
  | .caseStart operand =>
    let (opener, frame, layout) ← layout.closeFlow "CASE"
    let (switch, follows, layout) := match frame.kind with
      | .caseFrame switch _ =>
        (switch, true, layout.setFlow opener (.caseFrame switch (some (address + 2))))
      | _ => (opener, false, layout)
    match layout.flow.frames[switch]?.map FlowFrame.kind with
    | some (.switchFrame register _) =>
      let (value, number) ← caseValue environment calls address operand
      let wide := match register with
        | .a => layout.widths.accumulator
        | .x | .y => layout.widths.index
      let size ← caseSize wide number
      let (frame, layout) := layout.openFlow location (.caseFrame switch none)
      return (.caseStart value follows wide, frame, size + (if follows then 2 else 0), layout)
    | _ => .error (.unexpectedFlow "CASE")
  | .switchEnd =>
    let (opener, frame, layout) ← layout.closeFlow "ENDSWITCH"
    let (switch, layout) := match frame.kind with
      | .caseFrame switch _ =>
        (switch, layout.setFlow opener (.caseFrame switch (some address)))
      | _ => (opener, layout)
    match layout.flow.frames[switch]?.map FlowFrame.kind with
    | some (.switchFrame register _) =>
      return (.switchEnd register, switch, 0,
        layout.setFlow switch (.switchFrame register (some address)))
    | _ => .error (.unexpectedFlow "ENDSWITCH")

/-- Lays out an operation: what is left to do, its size, and the layout after it, before the
address moves on. -/
def placeOperation (environment : Environment) (calls : List MacroCall) (location : Location)
    (layout : Layout) (operation : Operation) :
    Except Fault (PlacedOperation × Nat × Layout) := do
  match operation with
  | .createSegment name start size fileOffset =>
    let layout ← layout.addSegment (.new name start size fileOffset location)
    return (.createSegment name start size fileOffset, 0, layout)
  | .changeSegment name => return (.changeSegment name, 0, ← layout.enter name)
  | .setOrigin operand =>
    let (_, segment) ← layout.requireSegment
    let origin ← originValue environment calls segment.start operand
    return (.setOrigin origin, 0, { layout with address := origin })
  | .setWidth register wide => return (.setWidth register wide, 0, layout.setWidth register wide)
  | .declareLabel name =>
    return (.declareLabel name, 0, ← layout.declareLabel environment location name)
  | .instruction mnemonic operands =>
    if !Opcode.isMnemonic mnemonic then .error (.unknownOpcode mnemonic)
    else
      let (operands, layout) ← resolveOperands environment calls location operands layout
      let opcode ← Opcode.select mnemonic layout.widths operands
      let wide := opcode.isWide layout.widths
      return (.instruction ⟨mnemonic, operands, opcode, wide, layout.address⟩,
        opcode.encodedSize layout.widths, layout)
  | .data width operands =>
    let (operands, size, layout) ← placeData environment calls location width operands layout
    return (.data width operands, size, layout)
  | .fill wide count value =>
    let (count, layout) ← resolveOperand environment calls location layout count
    let (value, layout) ← resolveOperand environment calls location layout value
    let count ← fillCount wide count
    return (.fill wide count value, if wide then count * 2 else count, layout)
  | .includeBinary path =>
    let _ ← layout.requireSegment
    let asset ← (environment.search.store.locate environment.search.directories path).mapError
      (Fault.ofAsset path)
    return (.includeBinary path asset.bytes, asset.bytes.length, layout)
  | .includeSource path => return (.includeSource path, 0, layout)
  | .setGlobal name => return (.settled, 0, ← layout.setGlobal name)
  | .setGlobalAll => return (.settled, 0, ← layout.setGlobalAll)
  | .flow statement =>
    let (step, frame, size, layout) ← placeFlow environment calls location layout statement
    return (.flow step frame, size, layout)

/-- Moves on by the size of an operation, if it has one. -/
def Layout.occupy (layout : Layout) (size : Nat) : Except Fault Layout :=
  if size = 0 then .ok layout else layout.advance size

/-- Whether the condition of an arm holds. Names that nothing defines count as zero. -/
def conditionHolds (environment : Environment) (calls : List MacroCall) (address : Int)
    (condition : Option Expr) : Except Fault Bool := do
  match condition with
  | none => return true
  | some condition =>
    let bound ← bindArguments calls condition
    let bound ← bindEquates environment.equates address (some (.ofInt 0)) bound
    match bound.eval Scope.empty with
    | .ok value => return value ≠ 0
    | .error cause => .error (.eval cause)

/-- Opens a macro call: its arguments may name the arguments of the call around it, and a macro
cannot be called while it is being expanded. -/
def openCall (environment : Environment) (calls : List MacroCall) (name : String)
    (operands : List Expr) : Except Fault (MacroCall × List Action) := do
  match environment.macros.get? name with
  | none => .error (.block (.undefinedMacro name))
  | some definition =>
    let expected := definition.parameters.length
    if !(operands.length = expected || (definition.variadic && expected ≤ operands.length)) then
      .error (.operandCount (.incorrectFor name))
    else if calls.any fun call => call.name == name then .error (.macroRecursion name)
    else
      let arguments ← operands.mapM (bindArguments calls)
      return (⟨name, definition.parameters, definition.variadic, arguments, none⟩, definition.body)

/-- Lays out actions inside the given macro calls, innermost first. -/
abbrev ActionPlacer :=
  List MacroCall → Layout → List Action → Except Failure (List Step × Layout)

/-- A step that fails at a location. -/
def failingAt {α : Type} (location : Location) (step : Except Fault α) : Except Failure α :=
  step.mapError fun fault => ⟨fault, location⟩

mutual

/-- Lays out one action. The bodies of macros are laid out by `deeper`; without it every macro is
being expanded. -/
def placeAction (environment : Environment) (deeper : Option ActionPlacer)
    (calls : List MacroCall) (layout : Layout) : Action → Except Failure (Step × Layout)
  | .operation operation location => do
    let (placed, size, layout) ←
      failingAt location (placeOperation environment calls location layout operation)
    let layout ← failingAt location (layout.occupy size)
    return (.operation placed size location, layout)
  | .callMacro name operands location => do
    let (call, body) ← failingAt location (openCall environment calls name operands)
    match deeper with
    | none => .error ⟨.macroRecursion name, location⟩
    | some place =>
      let (steps, layout) ← place (call :: calls) layout body
      return (.expansion (some name) steps location, layout)
  | .conditional arms location => do
    let (steps, layout) ← placeArms environment deeper calls layout arms
    return (.expansion none steps location, layout)
  | .argumentLoop body location => do
    match calls with
    | [] => .error ⟨.loopOutsideMacro, location⟩
    | call :: outer =>
      let (steps, layout) ← call.furtherArguments.zipIdx.foldlM
        (fun (steps, layout) (value, index) => do
          let round := { call with round := some (index, value) }
          let (more, layout) ← placeActions environment deeper (round :: outer) layout body
          return (steps ++ more, layout))
        (([] : List Step), layout)
      return (.expansion none steps location, layout)

/-- Lays out actions one after the other. -/
def placeActions (environment : Environment) (deeper : Option ActionPlacer)
    (calls : List MacroCall) (layout : Layout) :
    List Action → Except Failure (List Step × Layout)
  | [] => .ok ([], layout)
  | action :: rest => do
    let (first, layout) ← placeAction environment deeper calls layout action
    let (others, layout) ← placeActions environment deeper calls layout rest
    return (first :: others, layout)

/-- Lays out the first arm whose condition holds, if there is one. -/
def placeArms (environment : Environment) (deeper : Option ActionPlacer)
    (calls : List MacroCall) (layout : Layout) :
    List ConditionalArm → Except Failure (List Step × Layout)
  | [] => .ok ([], layout)
  | .mk condition body location :: rest => do
    if ← failingAt location (conditionHolds environment calls layout.address condition) then
      placeActions environment deeper calls layout body
    else placeArms environment deeper calls layout rest

end

/-- Lays out actions with macro calls nested at most `depth` deep. -/
def placeTo (environment : Environment) : Nat → ActionPlacer
  | 0 => placeActions environment none
  | depth + 1 => placeActions environment (some (placeTo environment depth))

/-- Lays out a program. The calls on the way to an action have different names, so there are
never more of them than there are macros. Every flow structure has to be closed at the end. -/
def layoutProgram (environment : Environment) (actions : List Action) :
    Except Failure (List Step × Layout) := do
  let (steps, layout) ←
    placeTo environment environment.macros.length [] Layout.empty actions
  match layout.flow.innermost? with
  | some frame => .error ⟨.unterminatedFlow frame.keyword, frame.location⟩
  | none => return (steps, layout)

/-- The address of a label for the references from one place. -/
structure Resolution where
  segment : String
  name : String
  /-- The address of the statement that refers to the label. -/
  reference : Int
  address : Int
  deriving Repr, Inhabited

/-- The declaration that a reference in a segment means: one of the same segment, or else a
global one. -/
def Layout.declaration? (layout : Layout) (segment : Segment) (stem : String) : Option Label :=
  (segment.label? stem).or do
    let key ← layout.globals.get? stem
    let owner ← layout.segments.get? key
    owner.label? stem

/-- Finds the address that a reference means. -/
def Layout.resolve (layout : Layout) (key : String) (segment : Segment) (reference : Reference) :
    Except Failure Resolution :=
  let (stem, direction) := splitDirection reference.name
  match layout.declaration? segment stem with
  | none => .error ⟨.undefinedLabel stem, reference.location⟩
  | some label =>
    match resolveAddress label.addresses reference.address direction with
    | none => .error ⟨.ambiguousReference stem, reference.location⟩
    | some address => .ok ⟨key, reference.name, reference.address, address⟩

/-- Finds the addresses of all references, segment by segment. -/
def Layout.resolveAll (layout : Layout) : Except Failure (List Resolution) := do
  let resolutions ← layout.segments.mapM fun (key, segment) =>
    segment.references.mapM (layout.resolve key segment)
  return resolutions.flatten

end Asm65816
