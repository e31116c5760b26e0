import Asm65816.Line.Reader
import Asm65816.Program.Names

/-!
# From lines to actions

Directives are told apart, equates are evaluated, included sources are read in place, and the
bodies of macros, conditional blocks and loops are gathered until their closing directive. The
order of the statements is kept.
-/

namespace Asm65816

/-- A block whose actions are gathered until it is closed. -/
inductive Capture where
  | macroBody (name : String) (body : List Action) (location : Location)
  /-- The finished arms, and the arm that is being read. -/
  | conditional (arms : List ConditionalArm) (condition : Option Expr) (body : List Action)
      (armLocation location : Location)
  | argumentLoop (body : List Action) (location : Location)

namespace Capture

/-- The name of the directive that opened the block. -/
def directive : Capture → String
  | macroBody _ _ _ => "MACRO"
  | conditional _ _ _ _ _ => "IF"
  | argumentLoop _ _ => "VALOOP"

/-- Where the block was opened. -/
def location : Capture → Location
  | macroBody _ _ location => location
  | conditional _ _ _ _ location => location
  | argumentLoop _ location => location

/-- The block with one more action at the end. -/
def append (action : Action) : Capture → Capture
  | macroBody name body location => macroBody name (body ++ [action]) location
  | conditional arms condition body armLocation location =>
    conditional arms condition (body ++ [action]) armLocation location
  | argumentLoop body location => argumentLoop (body ++ [action]) location

/-- The fault of another block that is closed before this one. -/
def unfinished (capture : Capture) : Fault := .block (.unfinished capture.directive)

end Capture

/-- What is known after the lines read so far. -/
structure BuildState where
  sources : Sources
  warnings : List Diagnostic
  actions : List Action
  /-- The open blocks, innermost first. -/
  captures : List Capture
  macros : Table MacroDefinition
  equates : Table Number
  /-- The names that were made global. -/
  globals : List String
  /-- The names that were written as labels. -/
  labels : List String

/-- A failure, with the sources that were read before it. -/
structure BuildFailure where
  failure : Failure
  sources : Sources

/-- The files that a program can include. -/
structure AssetSearch where
  store : AssetStore
  directories : List String

namespace BuildState

/-- The state before the first line of a main source. -/
def initial (sources : Sources) : BuildState := ⟨sources, [], [], [], [], [], [], []⟩

/-- Adds an action to the innermost open block, or to the program. -/
def append (state : BuildState) (action : Action) : BuildState :=
  match state.captures with
  | capture :: rest => { state with captures := capture.append action :: rest }
  | [] => { state with actions := state.actions ++ [action] }

/-- Adds an operation. -/
def add (state : BuildState) (operation : Operation) (location : Location) : BuildState :=
  state.append (.operation operation location)

/-- Opens a block. -/
def enter (state : BuildState) (capture : Capture) : BuildState :=
  { state with captures := capture :: state.captures }

end BuildState

/-- Operands of a statement that takes none. -/
def expectNone (operands : List Expr) (cause : CountFault) : Except Fault Unit :=
  if operands.isEmpty then .ok () else .error (.operandCount cause)

/-- The operand of a statement that takes one. -/
def expectOne (operands : List Expr) (cause : CountFault) : Except Fault Expr :=
  match operands with
  | [operand] => .ok operand
  | _ => .error (.operandCount cause)

/-- The file name that a directive needs. -/
def expectFileName (directive : String) (operands : List Expr) : Except Fault String := do
  match ← expectOne operands (.incorrectTo directive) with
  | .text path _ => return path
  | _ => .error (.invalidOperand (.fileName directive))

/-- The value of a `.SEGMENT` operand. -/
def segmentValue (equates : Table Number) (operand : Expr) (position : Nat) : Except Fault Int := do
  let bound ← bindEquates equates 0 none operand
  match bound.closedValue with
  | .ok number => return number.value
  | .error cause => .error (Fault.unlessTrap cause (.invalidOperand (.segmentOperand position)))

/-- The operation of `.SEGMENT "name", start, size, offset`. -/
def segmentOperation (equates : Table Number) (operands : List Expr) : Except Fault Operation := do
  match operands with
  | [name, start, size, fileOffset] =>
    match name with
    | .text name _ =>
      let start ← segmentValue equates start 2
      let size ← segmentValue equates size 3
      let fileOffset ← segmentValue equates fileOffset 4
      return .createSegment name start size fileOffset
    | _ => .error (.invalidOperand (.segmentOperand 1))
  | _ => .error (.operandCount (.incorrectFor "SEGMENT"))

namespace BuildState

/-- Makes names global, from the one at `position` on. -/
def declareGlobals (location : Location) :
    Nat → List Expr → BuildState → Except Fault BuildState
  | _, [], state => .ok state
  | position, operand :: rest, state =>
    match operand with
    | .name name =>
      if state.globals.contains name.ident then .error (.globalRedefinition position)
      else if isLocal name.ident then .error (.invalidGlobal name.ident)
      else
        declareGlobals location (position + 1) rest
          ({ state with globals := name.ident :: state.globals }.add
            (.setGlobal name.ident) location)
    | _ => .error (.invalidOperand (.notLabel position))

/-- The names of macro parameters. -/
def parameterNames : List Expr → Except Fault (List String)
  | [] => .ok []
  | .name name :: rest => do return name.ident :: (← parameterNames rest)
  | _ :: _ => .error (.invalidOperand .macroParameter)

/-- `.MACRO`: starts the body of the macro that the label names. -/
def beginMacro (state : BuildState) (label : Option (Spanned String)) (variadic : Bool)
    (operands : List Expr) (location : Location) : Except Fault BuildState := do
  match label with
  | none => .error .missingMacroLabel
  | some label =>
    let parameters ← parameterNames operands
    match nameFault? state.equates state.macros false label.node with
    | some fault => .error fault
    | none =>
      if !state.captures.isEmpty then .error (.block .macroNotAllowed)
      else
        return { state with
          macros := state.macros.put label.node ⟨parameters, variadic, []⟩ }.enter
            (.macroBody label.node [] location)

/-- `.ENDMACRO`. -/
def endMacro (state : BuildState) (operands : List Expr) : Except Fault BuildState :=
  if !operands.isEmpty then .error .endMacroOperands
  else match state.captures with
    | .macroBody name body _ :: rest =>
      .ok { state with
        captures := rest
        macros := state.macros.alter name fun definition => { definition with body := body } }
    | capture :: _ => .error capture.unfinished
    | [] => .error (.block .unexpectedEnd)

/-- `.ELIF` and `.ELSE`: finishes an arm and starts the next. Nothing follows `.ELSE`. -/
def nextArm (state : BuildState) (condition : Option Expr) (location : Location) :
    Except Fault BuildState :=
  match state.captures with
  | .conditional arms (some current) body armLocation opened :: rest =>
    .ok { state with
      captures :=
        .conditional (arms ++ [ConditionalArm.mk (some current) body armLocation]) condition []
          location opened :: rest }
  | .conditional _ none _ _ _ :: _ => .error (.block (.unfinished "ELSE"))
  | capture :: _ => .error capture.unfinished
  | [] => .error (.block .unexpectedEnd)

/-- `.ENDIF`. -/
def endConditional (state : BuildState) : Except Fault BuildState :=
  match state.captures with
  | .conditional arms condition body armLocation opened :: rest =>
    .ok ({ state with captures := rest }.append
      (.conditional (arms ++ [ConditionalArm.mk condition body armLocation]) opened))
  | capture :: _ => .error capture.unfinished
  | [] => .error (.block .unexpectedEnd)

/-- `.ENDVALOOP`. -/
def endLoop (state : BuildState) : Except Fault BuildState :=
  match state.captures with
  | .argumentLoop body opened :: rest =>
    .ok ({ state with captures := rest }.append (.argumentLoop body opened))
  | capture :: _ => .error capture.unfinished
  | [] => .error (.block .unexpectedEnd)

/-- Every directive but `.INCLUDE`; the name is in upper case and without its period. A name that
is no directive switches to the segment of that name. -/
def directive (state : BuildState) (name : String) (label : Option (Spanned String))
    (ellipsis : Bool) (operands : List Expr) (location : Location) : Except Fault BuildState := do
  match name with
  | "A8" | "A16" | "I8" | "I16" =>
    expectNone operands (.extra name)
    let register := if name = "A8" ∨ name = "A16" then WidthRegister.accumulator else .index
    return state.add (.setWidth register (decide (name = "A16" ∨ name = "I16"))) location
  | "DB" | "DW" | "DL" =>
    if operands.isEmpty then .error (.operandCount (.empty name))
    else
      let width := if name = "DB" then DataWidth.byte else if name = "DW" then .word else .long
      return state.add (.data width operands) location
  | "FILL" | "FILLW" =>
    match operands with
    | [count, value] => return state.add (.fill (decide (name = "FILLW")) count value) location
    | _ => .error (.operandCount (.incorrectTo name))
  | "GLOBAL" =>
    if operands.isEmpty then .error (.operandCount (.invalidTo "GLOBAL"))
    else state.declareGlobals location 1 operands
  | "GLOBALALL" =>
    expectNone operands (.invalidTo "GLOBALALL")
    return state.add .setGlobalAll location
  | "INCBIN" =>
    let path ← expectFileName name operands
    return state.add (.includeBinary path) location
  | "MACRO" => state.beginMacro label ellipsis operands location
  | "ENDMACRO" => state.endMacro operands
  | "ORG" =>
    let operand ← expectOne operands (.invalidTo "ORG")
    return state.add (.setOrigin operand) location
  | "SEGMENT" =>
    let operation ← segmentOperation state.equates operands
    return state.add operation location
  | "IF" =>
    let condition ← expectOne operands (.onlyOne "IF")
    return state.enter (.conditional [] (some condition) [] location location)
  | "ELIF" =>
    let condition ← expectOne operands (.onlyOne "ELIF")
    state.nextArm (some condition) location
  | "ELSE" =>
    expectNone operands .extraElse
    state.nextArm none location
  | "ENDIF" =>
    expectNone operands (.extra "ENDIF")
    state.endConditional
  | "VALOOP" =>
    expectNone operands .extraLoop
    return state.enter (.argumentLoop [] location)
  | "ENDVALOOP" =>
    expectNone operands (.extra "ENDVALOOP")
    state.endLoop
  | _ =>
    expectNone operands (.segmentChange name)
    return state.add (.changeSegment name) location

/-- A statement that is no directive: a macro call, a flow statement or an instruction. -/
def plainStatement (state : BuildState) (statement : Statement) (location : Location) :
    Except Fault BuildState := do
  let name := statement.name.node
  if state.macros.has name then
    return state.append (.callMacro name statement.operands location)
  else if FlowStatement.isKeyword name then
    let flow ← FlowStatement.read (upperAscii name) statement.operands
    return state.add (.flow flow) location
  else return state.add (.instruction name statement.operands) location

/-- `name = value`. The name must be free, and the value must be known. -/
def defineEquate (state : BuildState) (name : String) (value : Expr) : Except Fault BuildState := do
  if isLocal name then .error (.invalidName .localEquate)
  else if state.labels.contains name then .error (.invalidName .equateOfLabel)
  else match nameFault? state.equates state.macros false name with
    | some fault => .error fault
    | none =>
      let bound ← bindEquates state.equates 0 none value
      match bound.closedValue with
      | .ok number => return { state with equates := state.equates.put name number }
      | .error cause => .error (Fault.unlessTrap cause (.equateValue name cause))

end BuildState

/-- Builds the lines of a source. -/
abbrev LineBuilder := List Line → BuildState → Except BuildFailure BuildState

/-- A step that fails at a location. -/
def BuildState.run {α : Type} (state : BuildState) (location : Location)
    (step : Except Fault α) : Except BuildFailure α :=
  step.mapError fun fault => ⟨⟨fault, location⟩, state.sources⟩

/-- Whether a file is being read at a location, directly or through its includes. -/
def isBeingRead (location : Location) (file : String) : Bool :=
  location.file == file || location.includedFrom.any fun site => site.file == file

/-- `.INCLUDE`: finds the file and builds its lines in place. A file that is already being read
includes itself; without `deeper` every file that can be included is. -/
def includeFile (search : AssetSearch) (deeper : Option LineBuilder) (operands : List Expr)
    (location : Location) (state : BuildState) : Except BuildFailure BuildState := do
  let path ← state.run location (expectFileName "INCLUDE" operands)
  let asset ← state.run location
    ((search.store.locate search.directories path).mapError (Fault.ofAsset path))
  let text ← state.run location (asset.text.mapError (Fault.ofAsset path))
  let file := asset.path
  let selfIncluded := Fault.invalidOperand (.includesItself file)
  if isBeingRead location file then state.run location (.error selfIncluded)
  else match deeper with
    | none => state.run location (.error selfIncluded)
    | some build =>
      let source := state.sources.length
      let state := { state with sources := state.sources ++ [SourceFile.mk file text] }
      let includedFrom := location.includedFrom ++ [IncludeSite.mk location.file location.line]
      let read ← state.run location
        ((readSource source file text includedFrom).mapError (Fault.includedSource file))
      let state := { state with warnings := state.warnings ++ read.warnings }
      build read.lines (state.add (.includeSource path) location)

/-- Builds one statement of a line. -/
def buildStatement (search : AssetSearch) (deeper : Option LineBuilder)
    (label : Option (Spanned String)) (line : Location) (state : BuildState)
    (statement : Statement) : Except BuildFailure BuildState :=
  let location := line.narrow statement.span
  if statement.ellipsis && !statement.isNamed ".MACRO" then
    state.run location (.error .misplacedEllipsis)
  else match statement.name.node.toList with
    | '.' :: rest =>
      match upperAscii (String.ofList rest) with
      | "INCLUDE" => includeFile search deeper statement.operands location state
      | name =>
        state.run location
          (state.directive name label statement.ellipsis statement.operands location)
    | _ => state.run location (state.plainStatement statement location)

/-- Builds one line. A label is declared before the statements of its line, except in front of a
macro definition, which it names. -/
def buildLine (search : AssetSearch) (deeper : Option LineBuilder) (state : BuildState)
    (line : Line) : Except BuildFailure BuildState :=
  match line.body with
  | .equate name value =>
    state.run (line.location.narrow name.span) (state.defineEquate name.node value)
  | .statements label statements =>
    let definesMacro := statements.head?.elim false fun first => first.isNamed ".MACRO"
    let state := match label with
      | some label =>
        if definesMacro then state
        else { state with labels := label.node :: state.labels }.add
          (.declareLabel label.node) (line.location.narrow label.span)
      | none => state
    statements.foldlM (buildStatement search deeper label line.location) state

/-- Builds lines, with includes nested at most `depth` deep. -/
def buildLines (search : AssetSearch) : Nat → LineBuilder
  | 0 => fun lines state => lines.foldlM (buildLine search none) state
  | depth + 1 => fun lines state =>
    lines.foldlM (buildLine search (some (buildLines search depth))) state

/-- A bound on the number of paths that includes can lead to: every included path is written out
in a source that was read, and is tried as given and in every search directory. -/
def includeDepth (search : AssetSearch) (text : String) : Nat :=
  let written := search.store.contents.foldl (fun total content => total + content.length) 0
  (search.directories.length + 1) * (text.utf8ByteSize + written)

/-- The actions of a program and what its definitions say. -/
structure Program where
  sources : Sources
  warnings : List Diagnostic
  actions : List Action
  macros : Table MacroDefinition
  equates : Table Number

/-- Builds the program of a main source, given its registered text and its lines. Every block has
to be closed at the end. -/
def buildProgram (search : AssetSearch) (main : SourceFile) (lines : List Line) :
    Except BuildFailure Program := do
  let state ← buildLines search (includeDepth search main.text) lines (.initial [main])
  match state.captures with
  | capture :: _ => state.run capture.location (.error capture.unfinished)
  | [] => return ⟨state.sources, state.warnings, state.actions, state.macros, state.equates⟩

end Asm65816
