import Asm65816.Proofs.Outline

/-!
# Faults of the second walk

Emitting an operation can fail because an operand has no value, because the encoder refuses a
value, because a flow structure is not complete, or because a segment is looked for in vain. One
statement says where every fault comes from; the faults that would contradict the layout come from
nowhere but the operations that look for a segment.
-/

namespace Asm65816

/-- The operands whose values go into the bytes of an operation. -/
def PlacedOperation.evaluated : PlacedOperation → List Expr
  | .instruction encoding => encoding.operands.map Expr.valuePart
  | .data _ operands => operands
  | .fill _ _ value => [value]
  | .flow (.caseStart value _ _) _ => [value]
  | _ => []

/-- A fault of an encoder, which is about a value or about the distance of a branch. -/
def Fault.ofEncoding : Fault → Bool
  | .tooLarge _ | .branch _ | .unknownOpcode _ => true
  | _ => false

/-- A fault of a flow statement that is out of place or of a structure that is not finished. -/
def Fault.isFlowControl : Fault → Bool
  | .unexpectedFlow _ | .unmatchedFlow _ _ | .unterminatedFlow _ => true
  | _ => false

/-- A step whose faults are those of an encoder or of a given source. -/
def FaultsFrom {α : Type} (source : Fault → Prop) (step : Except Fault α) : Prop :=
  ∀ fault, step = .error fault → fault.ofEncoding = true ∨ source fault

namespace FaultsFrom

variable {α β : Type} {source : Fault → Prop}

/-- A success has no fault. -/
theorem ok (result : α) : FaultsFrom source (.ok result : Except Fault α) :=
  fun _ h => by cases h

/-- A failure of an encoder. -/
theorem error {fault : Fault} (hfault : fault.ofEncoding = true) :
    FaultsFrom source (.error fault : Except Fault α) := by
  intro found h
  obtain rfl := Except.error.inj h
  exact .inl hfault

/-- A failure of the source. -/
theorem ofSource {fault : Fault} (hfault : source fault) :
    FaultsFrom source (.error fault : Except Fault α) := by
  intro found h
  obtain rfl := Except.error.inj h
  exact .inr hfault

/-- A chain has the faults of its steps. -/
theorem bind {step : Except Fault α} {next : α → Except Fault β} (hstep : FaultsFrom source step)
    (hnext : ∀ value, FaultsFrom source (next value)) : FaultsFrom source (step >>= next) := by
  intro fault h
  rcases bind_eq_error.mp h with hfirst | ⟨value, -, hrest⟩
  · exact hstep fault hfirst
  · exact hnext value fault hrest

/-- A choice has the faults of its branches. -/
theorem ite {condition : Prop} [Decidable condition] {first second : Except Fault α}
    (hfirst : FaultsFrom source first) (hsecond : FaultsFrom source second) :
    FaultsFrom source (if condition then first else second) := by
  split
  · exact hfirst
  · exact hsecond

end FaultsFrom

section Encoders

variable {source : Fault → Prop}

/-- Encoding an instruction has the faults of its operands. -/
theorem Encoding.bytes_faults (encoding : Encoding) {value : Expr → Except Fault Number}
    (hvalue : ∀ operand ∈ encoding.operands, FaultsFrom source (value operand.valuePart)) :
    FaultsFrom source (encoding.bytes value) := by
  have hoperand (index : Nat) : FaultsFrom source (encoding.operandValue value index) := by
    unfold Encoding.operandValue
    split
    case h_1 operand hfound => exact hvalue operand (List.mem_of_getElem? hfound)
    case h_2 => exact .ok _
  refine .bind ?_ fun operand => .ok _
  unfold Encoding.operandBytes
  dsimp only
  split
  case h_1 | h_2 | h_3 | h_4 => exact .ok _
  case h_5 =>
    refine .bind (hoperand 0) fun number => .ite (.ite ?_ (.ok _)) (.ite (.error rfl) (.ok _))
    exact .error rfl
  case h_6 =>
    exact .bind (hoperand 0) fun source => .bind (hoperand 1) fun destination =>
      .ite (.error rfl) (.ok _)
  case h_7 | h_8 => exact .bind (hoperand 0) fun target => .ite (.ok _) (.error rfl)
  case h_9 => exact .bind (hoperand 0) fun number => .ite (.error rfl) (.ok _)

/-- Data has the faults of its operands. -/
theorem dataCode_faults (width : DataWidth) {value : Expr → Except Fault Number}
    {operands : List Expr} (hvalue : ∀ operand ∈ operands, FaultsFrom source (value operand))
    (address : Int) : FaultsFrom source (dataCode width value address operands) := by
  induction operands generalizing address with
  | nil => exact .ok _
  | cons operand rest ih =>
    have hrest := ih fun other hother => hvalue other (List.mem_cons_of_mem _ hother)
    refine .bind ?_ fun first => .bind (hrest _) fun others => .ok _
    unfold datumCode
    split
    · exact .ok _
    · exact .bind (hvalue _ List.mem_cons_self) fun number => .ite (.error rfl) (.ok _)

/-- A fill has no faults but those of an encoder. -/
theorem fillCode_faults (wide : Bool) (count : Nat) (number : Number) (address : Int) :
    FaultsFrom source (fillCode wide count number address) :=
  .ite (.error rfl) (.ite (.error rfl) (.ok _))

/-- An opcode that is missing is a fault of an encoder. -/
theorem flowOpcode_faults (mnemonic : String) (mode : AddressingMode) :
    FaultsFrom source (flowOpcode mnemonic mode) := by
  unfold flowOpcode
  split
  · exact .ok _
  · exact .error rfl

/-- A short branch out of reach is a fault of an encoder. -/
theorem shortBranch_faults (mnemonic : String) (address target : Int)
    (outOfReach : BranchFault) (comment : Option String) :
    FaultsFrom source (shortBranch mnemonic address target outOfReach comment) :=
  .ite (.bind (flowOpcode_faults _ _) fun _ => .ok _) (.error rfl)

/-- A long branch out of reach is a fault of an encoder. -/
theorem longBranch_faults (mnemonic : String) (address target : Int)
    (outOfReach : BranchFault) (comment : Option String) :
    FaultsFrom source (longBranch mnemonic address target outOfReach comment) :=
  .ite (.bind (flowOpcode_faults _ _) fun _ => .ok _) (.error rfl)

/-- A frame of this kind has what the branches of the statement need. -/
def FlowStep.Served (flow : FlowState) : FlowStep → FrameKind → Prop
  | .ifStart _, .ifFrame _ elseAt endAt => elseAt.isSome ∨ endAt.isSome
  | .elseStart _, .elseFrame _ endAt | .whileStart _, .whileFrame _ endAt => endAt.isSome
  | .caseStart _ _ _, .caseFrame switch nextAt => nextAt.isSome ∧
    ∃ register endAt, flow.frames[switch]?.map FlowFrame.kind =
      some (.switchFrame register (some endAt))
  | .ifStart _, _ | .elseStart _, _ | .whileStart _, _ | .caseStart _ _ _, _ => False
  | _, _ => True

/-- A target that is not known is a fault of flow control. -/
theorem FlowFrame.target_faults (frame : FlowFrame) (address : Option Int)
    (hsource : address = none → ∀ fault, fault.isFlowControl = true → source fault) :
    FaultsFrom source (frame.target address) := by
  cases address with
  | none => exact .ofSource (hsource rfl _ rfl)
  | some target => exact .ok _

/-- A case has no faults but those of an encoder, unless it has no value or its frame does not
serve it. -/
theorem caseCode_faults {flow : FlowState} {switch : Nat} {nextAt : Option Int} {value : Expr}
    {follows wide : Bool} (address : Int) (frame : FlowFrame)
    (hvalue : ∀ cause, value.closedValue = .error cause → source (.eval cause))
    (hsource : ¬(FlowStep.caseStart value follows wide).Served flow (.caseFrame switch nextAt) →
      ∀ fault, fault.isFlowControl = true → source fault) :
    FaultsFrom source (FlowStep.caseCode flow address frame switch nextAt value follows wide) := by
  unfold FlowStep.caseCode
  split
  case h_1 register endAt hswitch =>
    have hnext := frame.target_faults nextAt fun hnone =>
      hsource fun hserved => by simp [FlowStep.Served, hnone] at hserved
    have hend := frame.target_faults endAt fun hnone =>
      hsource fun hserved => by simp [FlowStep.Served, hnone, hswitch] at hserved
    have htail (number : Number) (leave : Code) : FaultsFrom source (do
        let compare ← caseComparison register (address + leave.bytes.length) number.value wide
        let next ← shortBranch "BNE" (address + leave.bytes.length + compare.bytes.length)
          (← frame.target nextAt) .caseDistance none
        return leave ++ compare ++ next) :=
      .bind (.bind (flowOpcode_faults _ _) fun _ => .ok _) fun compare =>
        .bind hnext fun target => .bind (shortBranch_faults _ _ _ _ _) fun next => .ok _
    refine .bind ?_ fun number => .ite ?_ (htail number Code.none)
    · intro fault h
      obtain ⟨cause, hcause, rfl⟩ := mapError_eq_error.mp h
      exact .inr (hvalue cause hcause)
    · exact .bind hend fun out =>
        .bind (shortBranch_faults _ _ _ _ _) fun leave => htail number leave
  case h_2 hmissing =>
    refine .ofSource (hsource ?_ _ rfl)
    rintro ⟨-, register, endAt, hswitch⟩
    exact hmissing register (some endAt) hswitch

/-- A flow statement has no faults but those of an encoder, unless it is a case without a value or
its frame does not serve it. -/
theorem FlowStep.code_faults {flow : FlowState} (address : Int) {number : Nat} {step : FlowStep}
    (hvalue : ∀ value follows wide cause, step = .caseStart value follows wide →
      value.closedValue = .error cause → source (.eval cause))
    (hsource : (∀ frame, flow.frames[number]? = some frame → ¬step.Served flow frame.kind) →
      ∀ fault, fault.isFlowControl = true → source fault) :
    FaultsFrom source (step.code flow address number) := by
  unfold FlowStep.code
  split
  case h_2 hmissing =>
    exact .ofSource (hsource (fun frame hframe => by simp [hmissing] at hframe) _ rfl)
  case h_1 frame hframe =>
    replace hsource (hunserved : ¬step.Served flow frame.kind) (fault : Fault)
        (hfault : fault.isFlowControl = true) : source fault :=
      hsource (fun found hfound => by cases hframe.symm.trans hfound; exact hunserved) fault hfault
    unfold FlowStep.frameCode
    cases step with
    | ifStart condition =>
      dsimp only
      split
      case h_1 found elseAt endAt hkind =>
        rw [hkind] at hsource
        cases elseAt with
        | some elseAt => exact shortBranch_faults _ _ _ _ _
        | none =>
          cases endAt with
          | some endAt => exact shortBranch_faults _ _ _ _ _
          | none => exact .ofSource (hsource (by simp [Served]) _ rfl)
      case h_2 => exact .ofSource (hsource (by simp [Served]) _ rfl)
    | elseStart condition | whileStart condition =>
      dsimp only
      split
      case h_1 found endAt hkind =>
        rw [hkind] at hsource
        refine .bind (frame.target_faults _ fun hnone => hsource ?_) fun target =>
          shortBranch_faults _ _ _ _ _
        simp [Served, hnone]
      case h_2 => exact .ofSource (hsource (by simp [Served]) _ rfl)
    | caseStart value follows wide =>
      dsimp only
      split
      case h_1 switch nextAt hkind =>
        rw [hkind] at hsource
        exact caseCode_faults _ _ (fun cause => hvalue value follows wide cause rfl) hsource
      case h_2 => exact .ofSource (hsource (by simp [Served]) _ rfl)
    | loopUntil condition | whileEnd condition => exact shortBranch_faults _ _ _ _ _
    | loopForever long =>
      exact .ite (longBranch_faults _ _ _ _ _) (shortBranch_faults _ _ _ _ _)
    | ifEnd condition | switchStart register | switchEnd register => exact .ok _
    | loopStart => exact .ok _

end Encoders

/-- A fault of emitting an operation that no encoder raises: an operand has no value, a segment
is looked for in vain, or a flow statement has no frame that serves it. -/
inductive PlacedOperation.Misses (labels : List Resolution) (layout : Layout) (fault : Fault) :
    PlacedOperation → Prop where
  | operand {operation : PlacedOperation} {operand : Expr} (mem : operand ∈ operation.evaluated)
      (fails : operandNumber labels layout operand = .error fault) :
      Misses labels layout fault operation
  | enter {name : String} (fails : layout.enter name = .error fault) :
      Misses labels layout fault (.changeSegment name)
  | origin {address : Int} (fails : layout.requireSegment = .error fault) :
      Misses labels layout fault (.setOrigin address)
  | caseValue {value : Expr} {follows wide : Bool} {number : Nat} {cause : EvalError}
      (reports : fault = .eval cause) (fails : value.closedValue = .error cause) :
      Misses labels layout fault (.flow (.caseStart value follows wide) number)
  | flow {step : FlowStep} {number : Nat} (control : fault.isFlowControl = true)
      (unserved : ∀ frame, layout.flow.frames[number]? = some frame →
        ¬step.Served layout.flow frame.kind) :
      Misses labels layout fault (.flow step number)

/-- Every fault of emitting an operation is one of an encoder, of an operand, of a segment or of a
flow structure. -/
theorem emitOperation_faults (labels : List Resolution) (layout : Layout)
    (operation : PlacedOperation) :
    FaultsFrom (fun fault => operation.Misses labels layout fault)
      (emitOperation labels layout operation) := by
  have hvalue (operand : Expr) (hmem : operand ∈ operation.evaluated) :
      FaultsFrom (fun fault => operation.Misses labels layout fault)
        (operandNumber labels layout operand) :=
    fun fault h => .inr (.operand hmem h)
  unfold emitOperation
  cases operation with
  | changeSegment name =>
    intro fault h
    rcases bind_eq_error.mp h with hfails | ⟨next, hnext, h⟩
    · exact .inr (.enter hfails)
    · obtain ⟨segment, hsegment, rfl⟩ := Layout.enter_eq_ok.mp hnext
      have hfound : Layout.requireSegment
          { layout with current := some (upperText name), address := segment.resume } =
            .ok (upperText name, segment) := Layout.requireSegment_eq_ok.mpr ⟨rfl, hsegment⟩
      rw [hfound] at h
      cases h
  | setOrigin address =>
    intro fault h
    rcases bind_eq_error.mp h with hfails | ⟨found, -, h⟩
    · exact .inr (.origin hfails)
    · cases h
  | instruction encoding =>
    refine .bind (encoding.bytes_faults fun operand hoperand => ?_) fun bytes => .ok _
    exact hvalue _ (List.mem_map_of_mem hoperand)
  | data width operands => exact .bind (dataCode_faults width hvalue _) fun code => .ok _
  | fill wide count operand =>
    exact .bind (hvalue operand List.mem_cons_self) fun number =>
      .bind (fillCode_faults _ _ _ _) fun code => .ok _
  | flow step number =>
    refine .bind (FlowStep.code_faults _ ?_ fun hunserved fault hfault => ?_) fun code => .ok _
    · rintro value follows wide cause rfl hfails
      exact .caseValue rfl hfails
    · exact .flow hfault hunserved
  | _ => exact .ok _

/-! ## Faults that contradict the layout -/

/-- A fault that says that the second walk came to another place than the first one. -/
def Fault.contradictsLayout : Fault → Bool
  | .sizeMismatch _ _ | .segmentOverflow _ | .missingSegment | .unknownDirective _
  | .unknownMode _ => true
  | _ => false

/-- A step none of whose faults contradicts the layout. -/
def Consistent {α : Type} (step : Except Fault α) : Prop :=
  ∀ fault, step = .error fault → fault.contradictsLayout = false

namespace Consistent

variable {α : Type}

/-- A success has no fault. -/
theorem ok (result : α) : Consistent (.ok result : Except Fault α) :=
  fun _ h => by cases h

/-- A failure has one fault. -/
theorem error {fault : Fault} (hfault : fault.contradictsLayout = false) :
    Consistent (.error fault : Except Fault α) := by
  intro found h
  obtain rfl := Except.error.inj h
  exact hfault

end Consistent

/-- Emitting an operation contradicts the layout only when it looks for a segment in vain. -/
theorem emitOperation_consistent {labels : List Resolution} {layout : Layout}
    {operation : PlacedOperation}
    (henter : ∀ name, operation = .changeSegment name → ∃ next, layout.enter name = .ok next)
    (horigin : ∀ address, operation = .setOrigin address →
      ∃ found, layout.requireSegment = .ok found) :
    Consistent (emitOperation labels layout operation) := by
  intro fault h
  rcases emitOperation_faults labels layout operation fault h with hencoding | hmisses
  · cases fault <;> first | rfl | cases hencoding
  · cases hmisses with
    | operand mem fails =>
      obtain ⟨cause, -, rfl⟩ := mapError_eq_error.mp fails
      cases cause <;> rfl
    | @enter name fails =>
      obtain ⟨next, hnext⟩ := henter name rfl
      rw [fails] at hnext
      cases hnext
    | @origin address fails =>
      obtain ⟨found, hfound⟩ := horigin address rfl
      rw [fails] at hfound
      cases hfound
    | caseValue reports fails =>
      subst reports
      rfl
    | flow control unserved => cases fault <;> first | rfl | cases control

end Asm65816
