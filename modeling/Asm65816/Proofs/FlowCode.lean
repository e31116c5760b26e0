import Asm65816.Flow.Step
import Asm65816.Proofs.ByteFields
import Asm65816.Proofs.Outcome

/-!
# The code of flow statements

What the bytes of a flow statement are, once its frame is complete: branches by their opcodes on
the 65C816, with displacements that are counted from the end of the branch. The statements here
take the encoder apart; where a branch of a whole structure leads is settled elsewhere.
-/

namespace Asm65816

/-- The opcode of the branch that is taken when the condition holds. -/
def Condition.opcode : Condition → UInt8
  | zeroSet => 0xF0
  | zeroClear => 0xD0
  | carrySet => 0xB0
  | carryClear => 0x90
  | negativeSet => 0x30
  | negativeClear => 0x10
  | overflowSet => 0x70
  | overflowClear => 0x50

/-- The opcode of the short branch that is always taken. -/
def alwaysOpcode : UInt8 := 0x80

/-- The opcode of the long branch that is always taken. -/
def alwaysLongOpcode : UInt8 := 0x82

/-- The opcode that compares a register with an immediate value. -/
def Register.opcode : Register → UInt8
  | a => 0xC9
  | x => 0xE0
  | y => 0xC0

/-- A branch of two bytes at `address` that leads to `target`. -/
def ShortBranch (opcode : UInt8) (address target : Int) (bytes : List UInt8) : Prop :=
  ∃ displacement, bytes = [opcode, displacement] ∧
    target = address + 2 + Encoding.signedField [displacement]

/-- A branch of three bytes at `address` that leads to `target`. -/
def LongBranch (opcode : UInt8) (address target : Int) (bytes : List UInt8) : Prop :=
  ∃ low high, bytes = [opcode, low, high] ∧
    target = address + 3 + Encoding.signedField [low, high]

/-- An entry of the table settles the opcode that a flow statement gets. -/
private theorem flowOpcode_eq {mnemonic : String} {mode : AddressingMode} {code : UInt8}
    (h : (Opcode.lookup mnemonic mode).toOption.map Opcode.code = some code) :
    flowOpcode mnemonic mode = .ok code := by
  unfold flowOpcode
  cases hlookup : Opcode.lookup mnemonic mode with
  | error cause => simp [hlookup, Except.toOption] at h
  | ok opcode =>
    simp only [hlookup, Except.toOption, Option.map_some, Option.some.injEq] at h
    exact congrArg Except.ok h

/-- The table has the branch of every condition, the branches that are always taken and the
comparison of every register. -/
private theorem lookup_flow :
    (∀ condition : Condition, (Opcode.lookup condition.branch .relative).toOption.map Opcode.code =
        some condition.opcode) ∧
      (Opcode.lookup "BRA" .relative).toOption.map Opcode.code = some alwaysOpcode ∧
      (Opcode.lookup "BRL" .relativeLong).toOption.map Opcode.code = some alwaysLongOpcode ∧
      ∀ register : Register, (Opcode.lookup register.compare .immediate).toOption.map Opcode.code =
        some register.opcode := by
  refine ⟨fun condition => ?_, ?_, ?_, fun register => ?_⟩
  · cases condition <;> decide +kernel
  · decide +kernel
  · decide +kernel
  · cases register <;> decide +kernel

/-- A branch on a condition gets the opcode of the condition. -/
theorem flowOpcode_branch (condition : Condition) :
    flowOpcode condition.branch .relative = .ok condition.opcode :=
  flowOpcode_eq (lookup_flow.1 condition)

/-- The short branch that is always taken gets its opcode. -/
theorem flowOpcode_always : flowOpcode "BRA" .relative = .ok alwaysOpcode :=
  flowOpcode_eq lookup_flow.2.1

/-- The long branch that is always taken gets its opcode. -/
theorem flowOpcode_alwaysLong : flowOpcode "BRL" .relativeLong = .ok alwaysLongOpcode :=
  flowOpcode_eq lookup_flow.2.2.1

/-- A comparison gets the opcode of its register. -/
theorem flowOpcode_compare (register : Register) :
    flowOpcode register.compare .immediate = .ok register.opcode :=
  flowOpcode_eq (lookup_flow.2.2.2 register)

/-- A displacement of one byte is read back. -/
theorem signedField_littleEndian_one {distance : Int} (hlow : -128 ≤ distance)
    (hhigh : distance ≤ 127) : Encoding.signedField (littleEndian distance 1) = distance := by
  apply signedField_littleEndian
  all_goals
    simp only [fieldSpan]
    omega

/-- A displacement of two bytes is read back. -/
theorem signedField_littleEndian_two {distance : Int} (hlow : -32768 ≤ distance)
    (hhigh : distance ≤ 32767) : Encoding.signedField (littleEndian distance 2) = distance := by
  apply signedField_littleEndian
  all_goals
    simp only [fieldSpan]
    omega

/-- A short branch leads to its target. -/
theorem shortBranch_eq_ok {mnemonic : String} {opcode : UInt8} {address target : Int}
    {outOfReach : BranchFault} {comment : Option String} {code : Code}
    (hopcode : flowOpcode mnemonic .relative = .ok opcode)
    (h : shortBranch mnemonic address target outOfReach comment = .ok code) :
    ShortBranch opcode address target code.bytes := by
  simp only [shortBranch, demand_eq_ok, bind_eq_ok, pure_eq_ok, hopcode, Except.ok.injEq] at h
  obtain ⟨⟨hlow, hhigh⟩, found, rfl, rfl⟩ := h
  have hback := signedField_littleEndian_one hlow hhigh
  refine ⟨wordByte (target - (address + 2)) 0, rfl, ?_⟩
  change Encoding.signedField [wordByte (target - (address + 2)) 0] = _ at hback
  omega

/-- A long branch leads to its target. -/
theorem longBranch_eq_ok {mnemonic : String} {opcode : UInt8} {address target : Int}
    {outOfReach : BranchFault} {comment : Option String} {code : Code}
    (hopcode : flowOpcode mnemonic .relativeLong = .ok opcode)
    (h : longBranch mnemonic address target outOfReach comment = .ok code) :
    LongBranch opcode address target code.bytes := by
  simp only [longBranch, demand_eq_ok, bind_eq_ok, pure_eq_ok, hopcode, Except.ok.injEq] at h
  obtain ⟨⟨hlow, hhigh⟩, found, rfl, rfl⟩ := h
  have hback := signedField_littleEndian_two hlow hhigh
  refine ⟨wordByte (target - (address + 3)) 0, wordByte (target - (address + 3)) 1, rfl, ?_⟩
  change Encoding.signedField
    [wordByte (target - (address + 3)) 0, wordByte (target - (address + 3)) 1] = _ at hback
  omega

@[simp] theorem Code.bytes_append (first second : Code) :
    (first ++ second).bytes = first.bytes ++ second.bytes := rfl

/-- A target that is known. -/
@[simp] theorem FlowFrame.target_some (frame : FlowFrame) (target : Int) :
    frame.target (some target) = .ok target := rfl

/-- The parts of a case: the branch out of the case before it, if there is one, the comparison,
and the branch to what comes next. -/
theorem caseCode_eq_ok {flow : FlowState} {address : Int} {frame : FlowFrame} {switch : Nat}
    {nextAt : Option Int} {value : Expr} {follows wide : Bool} {code : Code}
    (h : FlowStep.caseCode flow address frame switch nextAt value follows wide = .ok code) :
    ∃ register endAt number leave compare target next,
      flow.frames[switch]?.map FlowFrame.kind = some (.switchFrame register endAt) ∧
      value.closedValue = .ok number ∧
      (if follows then ∃ out, frame.target endAt = .ok out ∧
          shortBranch "BRA" address out (.structureSize "CASE/ENDSWITCH") (some ";; ENDCASE") =
            .ok leave
        else leave = Code.none) ∧
      caseComparison register (address + leave.bytes.length) number.value wide = .ok compare ∧
      frame.target nextAt = .ok target ∧
      shortBranch "BNE" (address + leave.bytes.length + compare.bytes.length) target
        .caseDistance none = .ok next ∧
      code = leave ++ compare ++ next := by
  unfold FlowStep.caseCode at h
  split at h
  case h_2 => cases h
  case h_1 register endAt hswitch =>
    cases follows with
    | true =>
      simp only [if_true, bind_eq_ok, pure_eq_ok, mapError_eq_ok] at h
      obtain ⟨number, hnumber, out, hout, leave, hleave, compare, hcompare, target, htarget, next,
        hnext, rfl⟩ := h
      exact ⟨register, endAt, number, leave, compare, target, next, hswitch, hnumber,
        ⟨out, hout, hleave⟩, hcompare, htarget, hnext, rfl⟩
    | false =>
      simp only [Bool.false_eq_true, if_false, bind_eq_ok, pure_eq_ok, mapError_eq_ok,
        Except.ok.injEq] at h
      obtain ⟨number, hnumber, leave, rfl, compare, hcompare, target, htarget, next, hnext, rfl⟩ :=
        h
      exact ⟨register, endAt, number, Code.none, compare, target, next, hswitch, hnumber, rfl,
        hcompare, htarget, hnext, rfl⟩

/-- A comparison is its opcode and a field as wide as the register. -/
theorem caseComparison_eq_ok {register : Register} {address value : Int} {wide : Bool}
    {code : Code} (h : caseComparison register address value wide = .ok code) :
    code.bytes = register.opcode :: littleEndian value (if wide then 2 else 1) := by
  simp only [caseComparison, flowOpcode_compare, bind_eq_ok, pure_eq_ok, Except.ok.injEq] at h
  obtain ⟨opcode, rfl, rfl⟩ := h
  rfl

namespace FlowStep

variable {flow : FlowState} {address : Int} {number : Nat} {frame : FlowFrame} {code : Code}

/-- The code of a statement is that of its frame. -/
theorem code_eq (step : FlowStep) (hframe : flow.frames[number]? = some frame) :
    step.code flow address number = step.frameCode flow address frame := by
  simp only [FlowStep.code, hframe]

/-- `IF` branches behind the `BRA` of its `ELSE` when the condition does not hold. -/
theorem ifStart_code_else {condition found : Condition} {elseAt : Int} {endAt : Option Int}
    (hframe : flow.frames[number]? = some frame)
    (hkind : frame.kind = .ifFrame found (some elseAt) endAt)
    (h : (ifStart condition).code flow address number = .ok code) :
    ShortBranch condition.negation.opcode address (elseAt + 2) code.bytes := by
  rw [code_eq _ hframe, frameCode, hkind] at h
  exact shortBranch_eq_ok (flowOpcode_branch _) h

/-- `IF` without `ELSE` branches to its `ENDIF` when the condition does not hold. -/
theorem ifStart_code_end {condition found : Condition} {endAt : Int}
    (hframe : flow.frames[number]? = some frame)
    (hkind : frame.kind = .ifFrame found none (some endAt))
    (h : (ifStart condition).code flow address number = .ok code) :
    ShortBranch condition.negation.opcode address endAt code.bytes := by
  rw [code_eq _ hframe, frameCode, hkind] at h
  exact shortBranch_eq_ok (flowOpcode_branch _) h

/-- `ELSE` always branches to its `ENDIF`. -/
theorem elseStart_code {condition found : Condition} {endAt : Int}
    (hframe : flow.frames[number]? = some frame)
    (hkind : frame.kind = .elseFrame found (some endAt))
    (h : (elseStart condition).code flow address number = .ok code) :
    ShortBranch alwaysOpcode address endAt code.bytes := by
  rw [code_eq _ hframe, frameCode, hkind] at h
  exact shortBranch_eq_ok flowOpcode_always h

/-- `UNTIL` branches back when the condition does not hold. -/
theorem loopUntil_code {condition : Condition} (hframe : flow.frames[number]? = some frame)
    (h : (loopUntil condition).code flow address number = .ok code) :
    ShortBranch condition.negation.opcode address frame.opened code.bytes := by
  rw [code_eq _ hframe, frameCode] at h
  exact shortBranch_eq_ok (flowOpcode_branch _) h

/-- `FOREVER` always branches back, by the branch that was chosen. -/
theorem loopForever_code {long : Bool} (hframe : flow.frames[number]? = some frame)
    (h : (loopForever long).code flow address number = .ok code) :
    if long then LongBranch alwaysLongOpcode address frame.opened code.bytes
    else ShortBranch alwaysOpcode address frame.opened code.bytes := by
  rw [code_eq _ hframe, frameCode] at h
  cases long with
  | true => exact longBranch_eq_ok flowOpcode_alwaysLong h
  | false => exact shortBranch_eq_ok flowOpcode_always h

/-- `WHILE` branches behind its `ENDWHILE` when the condition does not hold. -/
theorem whileStart_code {condition found : Condition} {endAt : Int}
    (hframe : flow.frames[number]? = some frame)
    (hkind : frame.kind = .whileFrame found (some endAt))
    (h : (whileStart condition).code flow address number = .ok code) :
    ShortBranch condition.negation.opcode address (endAt + 2) code.bytes := by
  rw [code_eq _ hframe, frameCode, hkind] at h
  exact shortBranch_eq_ok (flowOpcode_branch _) h

/-- `ENDWHILE` branches back behind its `WHILE` when the condition holds. -/
theorem whileEnd_code {condition : Condition} (hframe : flow.frames[number]? = some frame)
    (h : (whileEnd condition).code flow address number = .ok code) :
    ShortBranch condition.opcode address (frame.opened + 2) code.bytes := by
  rw [code_eq _ hframe, frameCode] at h
  exact shortBranch_eq_ok (flowOpcode_branch _) h

/-- `CASE` leaves the case before it for the end of the switch, compares, and branches to what
comes next when the values differ. -/
theorem caseStart_code {value : Expr} {follows wide : Bool} {switch : Nat} {owner : FlowFrame}
    {register : Register} {nextAt endAt : Int} (hframe : flow.frames[number]? = some frame)
    (hkind : frame.kind = .caseFrame switch (some nextAt))
    (howner : flow.frames[switch]? = some owner)
    (hswitch : owner.kind = .switchFrame register (some endAt))
    (h : (caseStart value follows wide).code flow address number = .ok code) :
    ∃ leave compare next operand, code.bytes = leave ++ compare ++ next ∧
      (if follows then ShortBranch alwaysOpcode address endAt leave else leave = []) ∧
      compare = register.opcode :: littleEndian operand (if wide then 2 else 1) ∧
      ShortBranch Condition.zeroClear.opcode (address + leave.length + compare.length) nextAt
        next := by
  rw [code_eq _ hframe, frameCode, hkind] at h
  obtain ⟨register', endAt', number, leave, compare, target, next, howner', -, hleave, hcompare,
    htarget, hnext, rfl⟩ := caseCode_eq_ok h
  simp only [howner, Option.map_some, hswitch, Option.some.injEq, FrameKind.switchFrame.injEq]
    at howner'
  obtain ⟨rfl, rfl⟩ := howner'
  obtain rfl : nextAt = target := by simpa using htarget
  refine ⟨leave.bytes, compare.bytes, next.bytes, number.value, rfl, ?_,
    caseComparison_eq_ok hcompare, shortBranch_eq_ok (flowOpcode_branch .zeroClear) hnext⟩
  cases follows with
  | true =>
    obtain ⟨out, hout, hbranch⟩ := hleave
    obtain rfl : endAt = out := by simpa using hout
    exact shortBranch_eq_ok flowOpcode_always hbranch
  | false =>
    obtain rfl : leave = Code.none := hleave
    rfl

end FlowStep

end Asm65816
