import Asm65816.Expr.Value
import Asm65816.Flow.Frame
import Asm65816.Listing
import Asm65816.Machine.Opcode

/-!
# The code of flow statements

Once a program is laid out, every flow statement knows its frame, and the frame knows where the
other parts of the structure stand. A statement then becomes the branches that its structure
needs at this place, with the rows that show them in a listing.
-/

namespace Asm65816

/-- A flow statement with what it took over from the structure it belongs to. -/
inductive FlowStep where
  | ifStart (condition : Condition)
  | elseStart (condition : Condition)
  | ifEnd (condition : Condition)
  | loopStart
  | loopUntil (condition : Condition)
  /-- `long` when the way back is too far for a short branch. -/
  | loopForever (long : Bool)
  | whileStart (condition : Condition)
  | whileEnd (condition : Condition)
  | switchStart (register : Register)
  /-- `follows` when another case of the switch stands before it. -/
  | caseStart (value : Expr) (follows wide : Bool)
  | switchEnd (register : Register)
  deriving Inhabited, Repr

/-- Bytes, and what a listing shows for them. -/
structure Code where
  bytes : List UInt8
  items : List ListingItem
  deriving Repr, Inhabited

namespace Code

/-- No bytes and nothing to show. -/
def none : Code := ⟨[], []⟩

/-- No bytes, and a comment on the right. -/
def comment (text : String) : Code := ⟨[], [.rightComment text]⟩

/-- One code behind another. -/
def append (first second : Code) : Code :=
  ⟨first.bytes ++ second.bytes, first.items ++ second.items⟩

instance : Append Code := ⟨append⟩

end Code

/-- The opcode of an instruction that a flow statement needs. -/
def flowOpcode (mnemonic : String) (mode : AddressingMode) : Except Fault UInt8 :=
  match Opcode.lookup mnemonic mode with
  | .ok opcode => .ok opcode.code
  | .error _ => .error (.unknownOpcode mnemonic)

/-- An address within its bank, as a listing shows the target of a branch. -/
def bankAddressText (address : Int) : String := "0x" ++ hexWord 4 (address % 65536)

/-- A short branch of two bytes at `address`. A target out of reach is the given fault. -/
def shortBranch (mnemonic : String) (address target : Int) (outOfReach : BranchFault)
    (comment : Option String) : Except Fault Code := do
  let distance := target - (address + 2)
  if -128 ≤ distance ∧ distance ≤ 127 then
    let bytes := (← flowOpcode mnemonic .relative) :: littleEndian distance 1
    return ⟨bytes, [.row address bytes (mnemonic ++ " " ++ bankAddressText target) comment]⟩
  else .error (.branch outOfReach)

/-- A long branch of three bytes at `address`. -/
def longBranch (mnemonic : String) (address target : Int) (outOfReach : BranchFault)
    (comment : Option String) : Except Fault Code := do
  let distance := target - (address + 3)
  if -32768 ≤ distance ∧ distance ≤ 32767 then
    let bytes := (← flowOpcode mnemonic .relativeLong) :: littleEndian distance 2
    return ⟨bytes, [.row address bytes (mnemonic ++ " " ++ bankAddressText target) comment]⟩
  else .error (.branch outOfReach)

/-- The comparison of a register with the value of a case. -/
def caseComparison (register : Register) (address : Int) (value : Int) (wide : Bool) :
    Except Fault Code := do
  let count := if wide then 2 else 1
  let bytes := (← flowOpcode register.compare .immediate) :: littleEndian value count
  let operand := "#0x" ++ hexWord (2 * count) (value % fieldSpan count)
  return ⟨bytes,
    [.row address bytes (register.compare ++ " " ++ operand) (some (";; CASE " ++ operand))]⟩

/-- A target that is known once the structure of a frame is complete. -/
def FlowFrame.target (frame : FlowFrame) (address : Option Int) : Except Fault Int :=
  match address with
  | some target => .ok target
  | none => .error (.unterminatedFlow frame.keyword)

namespace FlowStep

/-- The code of a case: a branch out of the case before it, the comparison, and the branch to the
next case when the values differ. -/
def caseCode (flow : FlowState) (address : Int) (frame : FlowFrame) (switch : Nat)
    (nextAt : Option Int) (value : Expr) (follows wide : Bool) : Except Fault Code := do
  match flow.frames[switch]?.map FlowFrame.kind with
  | some (.switchFrame register endAt) =>
    let number ← value.closedValue.mapError Fault.eval
    let leave ←
      if follows then
        shortBranch "BRA" address (← frame.target endAt) (.structureSize "CASE/ENDSWITCH")
          (some ";; ENDCASE")
      else .ok Code.none
    let address := address + leave.bytes.length
    let compare ← caseComparison register address number.value wide
    let address := address + compare.bytes.length
    let next ← shortBranch "BNE" address (← frame.target nextAt) .caseDistance none
    return leave ++ compare ++ next
  | _ => .error (.unexpectedFlow "CASE")

/-- The code of a statement at `address` whose frame is `frame`. -/
def frameCode (flow : FlowState) (address : Int) (frame : FlowFrame) (step : FlowStep) :
    Except Fault Code := do
  match step with
  | ifStart condition =>
    match frame.kind with
    | .ifFrame _ elseAt endAt =>
      let (target, what) ← match elseAt with
        | some elseAt => Except.ok (elseAt + 2, "IF/ELSE")
        | none => (frame.target endAt).map (·, "IF/ENDIF")
      shortBranch condition.inverseBranch address target (.structureSize what)
        (some (";; IF " ++ condition.name))
    | _ => .error (.unexpectedFlow "IF")
  | elseStart condition =>
    match frame.kind with
    | .elseFrame _ endAt =>
      shortBranch "BRA" address (← frame.target endAt) (.structureSize "ELSE-ENDIF")
        (some (";; ELSE !" ++ condition.name))
    | _ => .error (.unexpectedFlow "ELSE")
  | ifEnd condition => return .comment (";; ENDIF " ++ condition.name)
  | loopStart => return .comment ";; DO"
  | loopUntil condition =>
    shortBranch condition.inverseBranch address frame.opened (.structureSize "DO/UNTIL")
      (some (";; UNTIL " ++ condition.name))
  | loopForever long =>
    if long then
      longBranch "BRL" address frame.opened (.structureSize "DO/FOREVER") (some ";; FOREVER")
    else
      shortBranch "BRA" address frame.opened (.structureSize "DO/FOREVER") (some ";; FOREVER")
  | whileStart condition =>
    match frame.kind with
    | .whileFrame _ endAt =>
      shortBranch condition.inverseBranch address ((← frame.target endAt) + 2)
        (.structureSize "WHILE/ENDWHILE") (some (";; WHILE " ++ condition.name))
    | _ => .error (.unexpectedFlow "WHILE")
  | whileEnd condition =>
    shortBranch condition.branch address (frame.opened + 2) (.structureSize "WHILE/ENDWHILE")
      (some (";; ENDWHILE " ++ condition.name))
  | switchStart register => return .comment (";; SWITCH " ++ register.name)
  | caseStart value follows wide =>
    match frame.kind with
    | .caseFrame switch nextAt => caseCode flow address frame switch nextAt value follows wide
    | _ => .error (.unexpectedFlow "CASE")
  | switchEnd register => return .comment (";; ENDSWITCH " ++ register.name)

/-- The code of a statement at `address` whose frame has the given number. -/
def code (flow : FlowState) (address : Int) (number : Nat) (step : FlowStep) :
    Except Fault Code :=
  match flow.frames[number]? with
  | some frame => step.frameCode flow address frame
  | none => .error (.unexpectedFlow "flow control")

end FlowStep

end Asm65816
