import Asm65816.Expr.Basic
import Asm65816.Fault

/-!
# Structured flow control

`IF`/`ELSE`/`ENDIF`, `DO`/`UNTIL`/`FOREVER`, `WHILE`/`ENDWHILE` and `SWITCH`/`CASE`/`ENDSWITCH`
are statements that stand for branches. Their operands are checked when a statement is read.
-/

namespace Asm65816

/-- A condition on a processor flag. -/
inductive Condition where
  | zeroSet
  | zeroClear
  | carrySet
  | carryClear
  | negativeSet
  | negativeClear
  | overflowSet
  | overflowClear
  deriving DecidableEq, Repr, Inhabited

namespace Condition

/-- Every condition with its name. -/
def all : List (String × Condition) :=
  [("Z_SET", zeroSet), ("Z_CLEAR", zeroClear), ("C_SET", carrySet), ("C_CLEAR", carryClear),
    ("N_SET", negativeSet), ("N_CLEAR", negativeClear), ("V_SET", overflowSet),
    ("V_CLEAR", overflowClear)]

/-- The name of a condition. -/
def name : Condition → String
  | zeroSet => "Z_SET"
  | zeroClear => "Z_CLEAR"
  | carrySet => "C_SET"
  | carryClear => "C_CLEAR"
  | negativeSet => "N_SET"
  | negativeClear => "N_CLEAR"
  | overflowSet => "V_SET"
  | overflowClear => "V_CLEAR"

/-- The condition that an operand names. -/
def ofExpr? (operand : Expr) : Option Condition :=
  (all.find? fun (name, _) => operand.isName name).map Prod.snd

/-- The branch taken when the condition holds. -/
def branch : Condition → String
  | zeroSet => "BEQ"
  | zeroClear => "BNE"
  | carrySet => "BCS"
  | carryClear => "BCC"
  | negativeSet => "BMI"
  | negativeClear => "BPL"
  | overflowSet => "BVS"
  | overflowClear => "BVC"

/-- The opposite condition. -/
def negation : Condition → Condition
  | zeroSet => zeroClear
  | zeroClear => zeroSet
  | carrySet => carryClear
  | carryClear => carrySet
  | negativeSet => negativeClear
  | negativeClear => negativeSet
  | overflowSet => overflowClear
  | overflowClear => overflowSet

/-- The branch taken when the condition does not hold. -/
def inverseBranch (condition : Condition) : String := condition.negation.branch

end Condition

/-- A register that a `SWITCH` compares. -/
inductive Register where
  | a
  | x
  | y
  deriving DecidableEq, Repr, Inhabited

namespace Register

/-- The name of a register. -/
def name : Register → String
  | a => "A"
  | x => "X"
  | y => "Y"

/-- The register that an operand names. -/
def ofExpr? (operand : Expr) : Option Register :=
  [a, x, y].find? fun register => operand.isName register.name

/-- The instruction that compares a register. -/
def compare : Register → String
  | a => "CMP"
  | x => "CPX"
  | y => "CPY"

end Register

/-- A statement of a flow structure. -/
inductive FlowStatement where
  | ifStart (condition : Condition)
  | elseStart
  | ifEnd
  | loopStart
  | loopUntil (condition : Condition)
  | loopForever
  | whileStart (condition : Condition)
  | whileEnd
  | switchStart (register : Register)
  | caseStart (value : Expr)
  | switchEnd
  deriving Inhabited, Repr

namespace FlowStatement

/-- The words that start a flow statement. -/
def keywords : List String :=
  ["IF", "ELSE", "ENDIF", "DO", "UNTIL", "FOREVER", "WHILE", "ENDWHILE", "SWITCH", "CASE",
    "ENDSWITCH"]

/-- Whether a name starts a flow statement, in any letter case. -/
def isKeyword (name : String) : Bool := keywords.any fun keyword => sameLetters keyword name

/-- The one operand of a statement that needs a condition. -/
def readCondition (keyword : String) (operands : List Expr) : Except Fault Condition :=
  match operands with
  | [operand] =>
    match Condition.ofExpr? operand with
    | some condition => .ok condition
    | none => .error (.invalidOperand .condition)
  | _ => .error (.operandCount (.incorrectFor keyword))

/-- A statement that takes no operands. -/
def bare (keyword : String) (statement : FlowStatement) (operands : List Expr) :
    Except Fault FlowStatement :=
  if operands.isEmpty then .ok statement else .error (.operandCount (.extra keyword))

/-- The statement of a keyword in upper case. -/
def read (keyword : String) (operands : List Expr) : Except Fault FlowStatement :=
  match keyword with
  | "IF" => (readCondition keyword operands).map ifStart
  | "UNTIL" => (readCondition keyword operands).map loopUntil
  | "WHILE" => (readCondition keyword operands).map whileStart
  | "SWITCH" =>
    match operands with
    | [operand] =>
      match Register.ofExpr? operand with
      | some register => .ok (switchStart register)
      | none => .error (.invalidOperand .switchRegister)
    | _ => .error (.operandCount (.incorrectFor "SWITCH"))
  | "CASE" =>
    match operands with
    | [operand] =>
      if operand.isImmediate then .ok (caseStart operand)
      else .error (.operandCount .caseOperand)
    | _ => .error (.operandCount .caseOperand)
  | "ELSE" => bare keyword elseStart operands
  | "ENDIF" => bare keyword ifEnd operands
  | "DO" => bare keyword loopStart operands
  | "FOREVER" => bare keyword loopForever operands
  | "ENDWHILE" => bare keyword whileEnd operands
  | _ => bare keyword switchEnd operands

end FlowStatement

end Asm65816
