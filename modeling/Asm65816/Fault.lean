import Asm65816.Asset.Store
import Asm65816.Diagnostic.Basic
import Asm65816.Machine.Mode
import Asm65816.Number
import Asm65816.Text.Digits

/-!
# Assembly faults

Every way in which an assembly can fail once its source has been read, as causes; the wording of
each cause stands in one place. A fault together with the statement it is about is a failure.
-/

namespace Asm65816

/-- A wrong number of operands. -/
inductive CountFault where
  /-- Operands for a statement that takes none. -/
  | extra (keyword : String)
  /-- Operands of `.VALOOP`. -/
  | extraLoop
  /-- Operands of `.ELSE`. -/
  | extraElse
  /-- A data directive without operands. -/
  | empty (directive : String)
  | incorrectTo (directive : String)
  | incorrectFor (name : String)
  | invalidTo (directive : String)
  /-- Anything but the one condition of `.IF` or `.ELIF`. -/
  | onlyOne (directive : String)
  /-- Operands behind the name of a segment to switch to. -/
  | segmentChange (name : String)
  /-- Anything but one immediate value for `CASE`. -/
  | caseOperand
  deriving DecidableEq, Repr

namespace CountFault

def message : CountFault → String
  | extra keyword => s!"extra parameters to {keyword}"
  | extraLoop => "extra parameter to VALOOP"
  | extraElse => "extra arguments to ELSE"
  | empty directive => s!"empty {directive}"
  | incorrectTo directive => s!"incorrect number of arguments to {directive}"
  | incorrectFor name => s!"incorrect number of arguments for {name}"
  | invalidTo directive => s!"invalid number of arguments to {directive}"
  | onlyOne directive => s!"expected only 1 parameter to {directive}"
  | segmentChange name => s!"extra parameters to segment change '{name}'"
  | caseOperand => "currently only immediate values are supported for CASE"

end CountFault

/-- An operand of the wrong kind. -/
inductive OperandFault where
  | fileName (directive : String)
  /-- An operand of `.GLOBAL` that is no name. -/
  | notLabel (position : Nat)
  | segmentOperand (position : Nat)
  | includesItself (file : String)
  | macroParameter
  | textInData (directive : String)
  | fillOperands (directive : String)
  | originOperand
  | condition
  | switchRegister
  deriving DecidableEq, Repr

namespace OperandFault

def message : OperandFault → String
  | fileName directive => s!"file name required for {directive}"
  | notLabel position => s!"argument {position} isn't a label"
  | segmentOperand position => s!"parameter {position} to SEGMENT is invalid"
  | includesItself file => s!"'{file}' includes itself"
  | macroParameter => "all arguments to MACRO must be names"
  | textInData directive => s!"strings are not allowed in {directive}"
  | fillOperands directive => s!"error parsing {directive} arguments"
  | originOperand => "cannot evaluate argument to ORG"
  | condition =>
    "parameter 1 must be one of Z_SET, Z_CLEAR, C_SET, C_CLEAR, N_SET, N_CLEAR, V_SET or V_CLEAR"
  | switchRegister => "parameter 1 must be one of A, X, or Y"

end OperandFault

/-- A name that cannot be used where it stands. -/
inductive NameFault where
  /-- An equate of a name with `@`. -/
  | localEquate
  /-- An equate of a name that is a label above. -/
  | equateOfLabel
  /-- A numbered or looped argument in a macro that takes no further arguments. -/
  | notVariadic
  /-- `\i` or `\v` outside a loop. -/
  | outsideLoop (what : String)
  deriving DecidableEq, Repr

namespace NameFault

def message : NameFault → String
  | localEquate => "cannot use '@' for equates"
  | equateOfLabel => "equate redefines label"
  | notVariadic => "cannot use vararg values if the macro doesn't accept varargs"
  | outsideLoop what => s!"invalid use of \\{what} outside of VALOOP"

end NameFault

/-- A value that is wider than its place. -/
inductive SizeFault where
  /-- For the operand of an instruction; `mode` describes how it is addressed. -/
  | operand (mode : String)
  | data (directive : String)
  | fillByte
  | fillWord
  | caseValue
  deriving DecidableEq, Repr

namespace SizeFault

def message : SizeFault → String
  | operand mode => s!"argument too large for {mode} mode"
  | data directive => s!"argument to {directive} is too large"
  | fillByte => "fill byte size exceeds 1 byte"
  | fillWord => "fill word size exceeds 2 bytes"
  | caseValue => "argument to CASE is too large"

end SizeFault

/-- A branch that does not reach its target. -/
inductive BranchFault where
  | short (distance : Int)
  | long (distance : Int)
  /-- A flow structure whose branch has to span too much code. -/
  | structureSize (what : String)
  | caseDistance
  deriving DecidableEq, Repr

namespace BranchFault

def message : BranchFault → String
  | short distance => s!"relative branch out of range ({distance})"
  | long distance => s!"relative long branch out of range ({distance})"
  | structureSize what => s!"{what} section too large"
  | caseDistance => "CASE/ENDSWITCH distance too large"

end BranchFault

/-- A block directive or macro call out of place. -/
inductive BlockFault where
  | unfinished (block : String)
  | unexpectedEnd
  | macroNotAllowed
  | undefinedMacro (name : String)
  deriving DecidableEq, Repr

namespace BlockFault

def message : BlockFault → String
  | unfinished block => s!"unfinished {block}"
  | unexpectedEnd => "unexpected end block"
  | macroNotAllowed => "cannot declare a macro here"
  | undefinedMacro name => s!"undefined macro '{name}'"

end BlockFault

/-- Why a name is reserved. -/
inductive Reservation where
  | period
  | word
  | mnemonic
  deriving DecidableEq, Repr

namespace Reservation

def message : Reservation → String
  | period => "cannot declare labels or equates using a starting period ('.')"
  | word => "reserved name used as label"
  | mnemonic => "instruction name used as label"

end Reservation

/-- What a name already stands for. -/
inductive NameOwner where
  | label
  | equate
  | macroName
  deriving DecidableEq, Repr

namespace NameOwner

def message : NameOwner → String
  | label => "label redefined"
  | equate => "label is already assigned to an equate"
  | macroName => "label is already assigned to a macro"

end NameOwner

/-- A cause of failure. -/
inductive Fault where
  | segmentRedefinition (name : String)
  | missingSegment
  | reservedName (name : String) (reason : Reservation)
  | nameTaken (name : String) (owner : NameOwner)
  | invalidName (cause : NameFault)
  | equateValue (name : String) (cause : EvalError)
  | operandCount (cause : CountFault)
  | invalidOperand (cause : OperandFault)
  /-- An operand of `CASE` that has no value, and why. -/
  | invalidCase (cause : Fault)
  /-- Operands of `.ENDMACRO`. -/
  | endMacroOperands
  | segmentOverflow (segment : String)
  | byteOverlap (segment : String) (address : Int)
  | unknownOpcode (mnemonic : String)
  | unknownMode (mnemonic : String)
  | branch (cause : BranchFault)
  | tooLarge (cause : SizeFault)
  | globalRedefinition (position : Nat)
  | invalidGlobal (name : String)
  | undefinedLabel (name : String)
  | ambiguousReference (name : String)
  | unknownDirective (name : String)
  | notEvaluatable (name : String)
  /-- A statement of a flow structure that `opener` has to come before. -/
  | unmatchedFlow (keyword opener : String)
  | unexpectedFlow (keyword : String)
  | unterminatedFlow (keyword : String)
  | block (cause : BlockFault)
  | missingMacroLabel
  | macroRecursion (name : String)
  | loopOutsideMacro
  | misplacedEllipsis
  | fileNotFound (path : String)
  | asset (path : String) (cause : AssetError)
  /-- An included file that cannot be read as source, with the reports on it. -/
  | includedSource (file : String) (reports : List Diagnostic)
  | sizeMismatch (expected actual : Nat)
  | eval (cause : EvalError)
  deriving Repr

namespace Fault

/-- The wording of a fault. -/
def message : Fault → String
  | segmentRedefinition name => s!"cannot redefine segment '{name}'"
  | missingSegment => "statement requires a segment"
  | reservedName name reason => reason.message ++ ": " ++ name
  | nameTaken name owner => owner.message ++ ": " ++ name
  | invalidName cause => cause.message
  | equateValue name cause => s!"error processing equate '{name}': " ++ cause.message
  | operandCount cause => cause.message
  | invalidOperand cause => cause.message
  | invalidCase cause => "invalid argument to CASE: " ++ cause.message
  | endMacroOperands => "extra parameters to ENDMACRO"
  | segmentOverflow segment => s!"segment \"{segment}\" reaches beyond segment limits"
  | byteOverlap segment address =>
    s!"bytes at 0x{hexWord 6 address} in segment \"{segment}\" are written twice"
  | unknownOpcode mnemonic => s!"unknown opcode '{mnemonic}'"
  | unknownMode mnemonic => s!"could not determine addressing mode for '{mnemonic}'"
  | branch cause => cause.message
  | tooLarge cause => cause.message
  | globalRedefinition position => s!"argument {position} redefines label as global again"
  | invalidGlobal name => s!"label '{name}' can't be global"
  | undefinedLabel name => s!"name \"{name}\" used but not defined"
  | ambiguousReference name => s!"ambiguous reference to '{name}'"
  | unknownDirective name => s!"unknown segment name or compiler directive '{name}'"
  | notEvaluatable name => s!"cannot collapse name: {name}"
  | unmatchedFlow keyword opener => s!"{keyword} with no matching {opener} statement"
  | unexpectedFlow keyword => s!"unexpected {keyword}"
  | unterminatedFlow keyword => s!"flow control {keyword} not terminated"
  | block cause => cause.message
  | missingMacroLabel => "MACRO requires label definition"
  | macroRecursion name => s!"macro '{name}' is expanded inside its own expansion"
  | loopOutsideMacro => "VALOOP used outside of macro"
  | misplacedEllipsis => "use of ellipsis (...) is not valid here"
  | fileNotFound path => s!"could not locate file '{path}'"
  | asset path _ => s!"cannot read '{path}'"
  | includedSource file _ => s!"cannot parse included file '{file}'"
  | sizeMismatch expected actual =>
    s!"action emitted {actual} bytes after being sized at {expected}"
  | eval cause => cause.message

/-- What to do about a fault, where there is advice. -/
def help? : Fault → Option String
  | missingSegment =>
    some "select a segment first, for example '.code' after '.segment \"code\", ...'"
  | unknownDirective _ => some "declare the segment with '.segment' before switching to it"
  | ambiguousReference _ => some "add '+' to refer forward or '-' to refer backward"
  | segmentOverflow _ => some "enlarge the segment or move code elsewhere"
  | loopOutsideMacro => some "'.valoop' walks the variadic arguments of a macro"
  | _ => none

/-- A file that cannot be used: missing files are a fault of their own. -/
def ofAsset (path : String) (cause : AssetError) : Fault :=
  if cause.isMissing then fileNotFound path else asset path cause

/-- An expression without a value: an unresolved name is an undefined label. -/
def ofEval : EvalError → Fault
  | .unresolvedName name => undefinedLabel name
  | cause => eval cause

/-- `fault` for an operand without a value, whatever the cause. Only a trap is none of the operand's
faults, and stays what it is. -/
def unlessTrap (cause : EvalError) (fault : Fault) : Fault :=
  match cause with
  | .trap => eval .trap
  | _ => fault

end Fault

/-- A fault and the statement it is about. -/
structure Failure where
  fault : Fault
  location : Location
  deriving Repr

namespace Failure

/-- `file:line: wording`. -/
def message (failure : Failure) : String :=
  failure.location.render ++ ": " ++ failure.fault.message

/-- The reports on a failure. Faults of an included file bring their own; any other one is a
single report with its advice and a note for each include that led to it, innermost first. -/
def reports (failure : Failure) : List Diagnostic :=
  match failure.fault with
  | .includedSource _ reports => reports
  | fault =>
    let plain := Diagnostic.errorAt failure.location.span fault.message
    let advised := fault.help?.elim plain plain.withHelp
    [failure.location.includedFrom.reverse.foldl
      (fun report site => report.withNote s!"included from {site.file}:{site.line}") advised]

end Failure

end Asm65816
