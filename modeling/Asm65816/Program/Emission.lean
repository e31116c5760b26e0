import Asm65816.Asset.Petscii
import Asm65816.Program.Placement

/-!
# The bytes of a program

The second walk through a program takes the steps of the first one in the same order, evaluates
their operands with the labels resolved, and writes the bytes into the segments. What a listing
shows is gathered on the way when one is asked for, and does not influence the bytes.
-/

namespace Asm65816

/-- The labels as they are seen from the statement at `address` in the segment `key`. A short
reference stays within the bank, and a long one has at least three bytes. -/
def labelScope (labels : List Resolution) (key : Option String) (address : Int) : Scope :=
  fun name => do
    let key ← key
    let found ← labels.find? fun entry =>
      entry.segment == key && entry.name == name.ident && entry.reference == address
    if name.long then return .ofHex found.address (max (requiredBytes found.address) 3)
    else
      let within := found.address % 65536
      return .ofHex within (requiredBytes within)

/-- The value of an operand of the statement that the layout has come to. -/
def operandNumber (labels : List Resolution) (layout : Layout) (operand : Expr) :
    Except Fault Number :=
  (operand.collapse (labelScope labels layout.current layout.address)).mapError Fault.ofEval

/-- One item of a data directive, at `address`. -/
def datumCode (width : DataWidth) (value : Expr → Except Fault Number) (address : Int)
    (operand : Expr) : Except Fault Code := do
  let directive := "." ++ width.directive ++ " "
  match operand with
  | .text content shifted =>
    let bytes := if shifted then petscii content else utf8Bytes content
    return ⟨bytes, [.data address bytes (directive ++ "\"" ++ content ++ "\"")]⟩
  | operand =>
    let number ← value operand
    if width.bytes < number.width then .error (.tooLarge (.data width.directive))
    else
      let bytes := littleEndian number.value width.bytes
      let digits := hexWord (2 * width.bytes) (number.value % fieldSpan width.bytes)
      return ⟨bytes, [.row address bytes (directive ++ "0x" ++ digits) none]⟩

/-- The items of a data directive one after the other. -/
def dataCode (width : DataWidth) (value : Expr → Except Fault Number) :
    Int → List Expr → Except Fault Code
  | _, [] => .ok .none
  | address, operand :: rest => do
    let first ← datumCode width value address operand
    let others ← dataCode width value (address + first.bytes.length) rest
    return first ++ others

/-- The bytes of a fill directive. -/
def fillCode (wide : Bool) (count : Nat) (number : Number) (address : Int) :
    Except Fault Code :=
  let unit := if wide then 2 else 1
  if wide ∧ 2 < number.width then .error (.tooLarge .fillWord)
  else if !wide ∧ number.width ≠ 1 then .error (.tooLarge .fillByte)
  else
    let bytes := (List.replicate count (littleEndian number.value unit)).flatten
    let operands :=
      "0x" ++ hexWord 4 count ++ ", 0x" ++ hexWord (2 * unit) (number.value % fieldSpan unit)
    .ok ⟨bytes, [.data address bytes ("." ++ fillDirective wide ++ " " ++ operands)]⟩

/-- The line that declares a segment in the header of a listing. -/
def segmentHeader (name : String) (start size fileOffset : Int) : String :=
  let shownOffset := if fileOffset < 0 then "\"not present\"" else "0x" ++ hexWord 4 fileOffset
  "\t\t;; segment \"" ++ name ++ "\" size = 0x" ++ hexWord 4 size ++ " start = 0x" ++
    hexWord 4 start ++ " file_offset = " ++ shownOffset ++ "\n"

/-- The lines at the head of a block that a change of segment opens. -/
def segmentBanner (name : String) (address : Int) (widths : RegisterWidths) : String :=
  let bits (wide : Bool) : String := if wide then "16" else "8"
  let line (text : String) : String := blanks leftMargin ++ text ++ "\n"
  "\n" ++ line (";; segment \"" ++ name ++ "\", org = 0x" ++ hexWord 4 address) ++ line ";;" ++
    line (";; Accumulator/Memory = " ++ bits widths.accumulator ++
      "-bit, Index registers = " ++ bits widths.index ++ "-bit") ++ line ";;"

/-- What an operation does in the second walk. -/
structure Emitted where
  code : Code
  /-- A text for the header of the listing. -/
  header : String
  /-- Whether the items of the code start a block of the listing. -/
  opensBlock : Bool
  /-- The layout at which the code is placed. -/
  layout : Layout

namespace Emitted

/-- Code at the place that the layout has come to. -/
def here (layout : Layout) (code : Code) : Emitted := ⟨code, "", false, layout⟩

/-- No code, and lines on the left of the listing. -/
def remark (layout : Layout) (text : String) : Emitted := here layout ⟨[], [.leftLine text]⟩

end Emitted

/-- The bytes of an operation, with the labels resolved. -/
def emitOperation (labels : List Resolution) (layout : Layout) (operation : PlacedOperation) :
    Except Fault Emitted := do
  let value := operandNumber labels layout
  match operation with
  | .createSegment name start size fileOffset =>
    return ⟨.none, segmentHeader name start size fileOffset, false, layout⟩
  | .changeSegment name =>
    let entered ← layout.enter name
    let (_, segment) ← entered.requireSegment
    let banner := segmentBanner segment.name entered.address entered.widths
    return ⟨⟨[], [.text banner]⟩, "", true, entered⟩
  | .setOrigin address =>
    let _ ← layout.requireSegment
    return ⟨⟨[], [.leftLine (";; set org = 0x" ++ hexWord 4 address), .leftLine ";;"]⟩, "", true,
      { layout with address := address }⟩
  | .setWidth register wide => return .here (layout.setWidth register wide) .none
  | .declareLabel name => return .remark layout (";; " ++ name ++ ":")
  | .instruction encoding =>
    let bytes ← encoding.bytes value
    let text := encoding.listingText bytes
    return .here layout ⟨bytes, [.row encoding.address bytes text none]⟩
  | .data width operands => return .here layout (← dataCode width value layout.address operands)
  | .fill wide count operand =>
    let number ← value operand
    return .here layout (← fillCode wide count number layout.address)
  | .includeBinary path bytes =>
    return .here layout ⟨bytes, [.data layout.address bytes (".INCBIN \"" ++ path ++ "\"")]⟩
  | .includeSource path => return .remark layout (";; .include \"" ++ path ++ "\"")
  | .settled => return .here layout .none
  | .flow step frame => return .here layout (← step.code layout.flow layout.address frame)

/-- Writes bytes at the current address and moves on behind them. -/
def Layout.place (layout : Layout) (bytes : List UInt8) : Except Fault Layout := do
  if bytes.isEmpty then return layout
  else
    let (key, segment) ← layout.requireSegment
    match segment.write layout.address bytes with
    | (_, some fault) => .error fault
    | (written, none) => (layout.setSegment key written).advance bytes.length

/-- Records what an operation shows. Outside of every segment only the header is recorded. -/
def Listing.record (listing : Listing) (emitted : Emitted) : Listing :=
  let listing := listing.addHeader emitted.header
  match emitted.layout.current with
  | none => listing
  | some segment =>
    let address := emitted.layout.address
    let listing := if emitted.opensBlock then listing.openBlock segment address else listing
    emitted.code.items.foldl (fun listing item => listing.addItem segment address item) listing

/-- The state of the second walk, with what the listing shows so far when one is asked for. -/
structure Emission where
  layout : Layout
  listing : Option Listing

namespace Emission

/-- Emits an operation, which has to be as long as it was when it was laid out. -/
def operation (emission : Emission) (labels : List Resolution) (operation : PlacedOperation)
    (size : Nat) : Except Fault Emission := do
  let emitted ← emitOperation labels emission.layout operation
  let actual := emitted.code.bytes.length
  if actual ≠ size then .error (.sizeMismatch size actual)
  else
    let layout ← emitted.layout.place emitted.code.bytes
    return ⟨layout, emission.listing.map fun listing => listing.record emitted⟩

/-- Shows the name of a macro that is expanded. -/
def showCall (emission : Emission) (call : Option String) : Emission :=
  match call with
  | none => emission
  | some name =>
    let remark := Emitted.remark emission.layout (";; " ++ name)
    { emission with listing := emission.listing.map fun listing => listing.record remark }

end Emission

mutual

/-- Emits one step. -/
def emitStep (labels : List Resolution) (emission : Emission) : Step → Except Failure Emission
  | .operation operation size location =>
    failingAt location (emission.operation labels operation size)
  | .expansion call steps _ => emitSteps labels (emission.showCall call) steps

/-- Emits steps one after the other. -/
def emitSteps (labels : List Resolution) (emission : Emission) :
    List Step → Except Failure Emission
  | [] => .ok emission
  | step :: rest => do emitSteps labels (← emitStep labels emission step) rest

end

/-- Emits a program that is laid out, and gathers its listing. -/
def emitProgram (layout : Layout) (labels : List Resolution) (steps : List Step) :
    Except Failure Emission :=
  emitSteps labels ⟨layout.rewind, some Listing.empty⟩ steps

/-- Emits a program that is laid out, without a listing. -/
def emitUnlisted (layout : Layout) (labels : List Resolution) (steps : List Step) :
    Except Failure Emission :=
  emitSteps labels ⟨layout.rewind, none⟩ steps

end Asm65816
