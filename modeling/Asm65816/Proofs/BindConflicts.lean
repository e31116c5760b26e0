import Asm65816.Proofs.LabelLookup
import Asm65816.Proofs.WalkFaults

/-!
# Names get one value

Names are bound only while they have no value, so that no step of an assembly finds a name with
two. Every fault of building, laying out and emitting a program is followed to where it is raised.
-/

namespace Asm65816

/-- Whether an error is about a second value for a name. -/
def EvalError.isConflict : EvalError → Bool
  | .bindConflict _ _ _ => true
  | _ => false

/-- Whether a fault is about a second value for a name. -/
def Fault.isConflict : Fault → Bool
  | .equateValue _ cause | .eval cause => cause.isConflict
  | .invalidCase cause => cause.isConflict
  | _ => false

/-- Whether a fault is about the words of one statement: the names and operands that it has, and the
files that these name. A trap in an operand is one of them. -/
def Fault.isOfWords : Fault → Bool
  | .reservedName _ _ | .nameTaken _ _ | .operandCount _ | .invalidOperand _
  | .globalRedefinition _ | .invalidGlobal _ | .fileNotFound _ | .asset _ _ => true
  | .eval cause => cause = .trap
  | _ => false

/-- A step that does not fail for a bad cause. -/
def Avoids {ε α : Type} (bad : ε → Bool) (step : Except ε α) : Prop :=
  ∀ cause, step = .error cause → bad cause = false

namespace Avoids

variable {ε ε' α β : Type} {bad : ε → Bool}

theorem ok (result : α) : Avoids bad (.ok result : Except ε α) := fun _ h => by cases h

theorem error {cause : ε} (h : bad cause = false) : Avoids bad (.error cause : Except ε α) := by
  intro found hfound
  cases hfound
  exact h

theorem bind {step : Except ε α} {next : α → Except ε β} (hstep : Avoids bad step)
    (hnext : ∀ value, Avoids bad (next value)) : Avoids bad (step >>= next) := by
  intro cause h
  rcases bind_eq_error.mp h with hfirst | ⟨value, -, hrest⟩
  · exact hstep cause hfirst
  · exact hnext value cause hrest

theorem ite {condition : Prop} [Decidable condition] {first second : Except ε α}
    (hfirst : Avoids bad first) (hsecond : Avoids bad second) :
    Avoids bad (if condition then first else second) := by
  split
  · exact hfirst
  · exact hsecond

/-- A reworded cause is bad when the cause is. -/
theorem mapError {worse : ε' → Bool} {step : Except ε α} {reword : ε → ε'}
    (hstep : Avoids bad step)
    (hreword : ∀ cause, bad cause = false → worse (reword cause) = false) :
    Avoids worse (step.mapError reword) := by
  intro cause h
  obtain ⟨found, hfound, rfl⟩ := mapError_eq_error.mp h
  exact hreword found (hstep found hfound)

theorem map {step : Except ε α} {change : α → β} (hstep : Avoids bad step) :
    Avoids bad (step.map change) := by
  cases step with
  | ok result => exact .ok _
  | error cause => exact .error (hstep cause rfl)

theorem mapM {step : α → Except ε β} {items : List α} (hstep : ∀ item, Avoids bad (step item)) :
    Avoids bad (items.mapM step) := by
  induction items with
  | nil => exact .ok _
  | cons item rest ih =>
    rw [List.mapM_cons]
    exact .bind (hstep item) fun first => .bind ih fun others => .ok _

theorem foldlM {step : β → α → Except ε β} {items : List α}
    (hstep : ∀ state item, Avoids bad (step state item)) (state : β) :
    Avoids bad (items.foldlM step state) := by
  induction items generalizing state with
  | nil => exact .ok _
  | cons item rest ih =>
    rw [List.foldlM_cons]
    exact .bind (hstep state item) fun next => ih next

end Avoids

/-- A step of an assembly that never finds a name with two values. -/
abbrev Agrees {α : Type} (step : Except Fault α) : Prop := Avoids Fault.isConflict step

/-- A step of an assembly that only fails for the words of a statement. -/
abbrev ReadsWords {α : Type} (step : Except Fault α) : Prop :=
  Avoids (fun fault => !fault.isOfWords) step

/-- What only fails for the words of a statement fails for nothing else. -/
theorem ReadsWords.avoids {α : Type} {step : Except Fault α} {bad : Fault → Bool}
    (h : ReadsWords step) (hbad : ∀ fault, fault.isOfWords = true → bad fault = false) :
    Avoids bad step := by
  intro fault hfault
  refine hbad fault ?_
  simpa using h fault hfault

theorem Fault.not_conflict_of_isOfWords (fault : Fault) (h : fault.isOfWords = true) :
    fault.isConflict = false := by
  cases fault with
  | eval cause =>
    obtain rfl := of_decide_eq_true h
    rfl
  | _ => first | rfl | cases h

/-- An operand without a value fails for no bad cause when neither its fault nor a trap is one. -/
theorem Avoids.unlessTrap {α : Type} {bad : Fault → Bool} {cause : EvalError} {fault : Fault}
    (htrap : bad (.eval .trap) = false) (h : bad fault = false) :
    Avoids bad (.error (Fault.unlessTrap cause fault) : Except Fault α) := by
  rcases Fault.unlessTrap_eq cause fault with hfault | hfault
  · rw [hfault]
    exact .error htrap
  · rw [hfault]
    exact .error h

theorem ReadsWords.agrees {α : Type} {step : Except Fault α} (h : ReadsWords step) : Agrees step :=
  h.avoids Fault.not_conflict_of_isOfWords

/-! ## Expressions -/

section Expressions

theorem UnaryOp.apply_agrees (op : UnaryOp) (n : Number) :
    Avoids EvalError.isConflict (op.apply n) := by
  intro cause h
  rcases UnaryOp.apply_eq_error h with rfl | ⟨-, -, rfl⟩ <;> rfl

theorem BinaryOp.apply_agrees (op : BinaryOp) (a b : Number) :
    Avoids EvalError.isConflict (op.apply a b) := by
  intro cause h
  rcases BinaryOp.apply_eq_error h with rfl | rfl | rfl <;> rfl

/-- Evaluation gives no name a value. -/
theorem Expr.collapse_agrees (scope : Scope) (e : Expr) :
    Avoids EvalError.isConflict (e.collapse scope) := by
  induction e using Expr.inductionOn with
  | number value => exact .ok _
  | name found =>
    rw [collapse]
    split
    · exact .ok _
    · exact .error rfl
  | bound found value ih => exact ih
  | unary op operand ih =>
    rw [collapse_unary]
    exact .bind ih op.apply_agrees
  | binary op left right ihl ihr =>
    rw [collapse_binary]
    exact .bind ihl fun a => .bind ihr fun b => op.apply_agrees a b
  | group items long ih =>
    rw [collapse]
    unfold collapseItems
    split
    case h_1 single => exact ih single (List.mem_singleton_self single)
    case h_2 => exact .error rfl
  | text content petscii => exact .error rfl
  | immediate operand ih => exact ih

/-- Binding names fails for the reasons that a choice fails for. -/
theorem Expr.bindNames_avoids {bad : Fault → Bool} {choose : Name → Except Fault (Option Expr)}
    (h : ∀ name, Avoids bad (choose name)) (e : Expr) : Avoids bad (e.bindNames choose) := by
  induction e using Expr.inductionOn with
  | number value => exact .ok _
  | name found =>
    rw [bindNames]
    refine .bind (h found) fun chosen => ?_
    cases chosen with
    | none => exact .ok _
    | some value => exact .ok _
  | bound found value ih =>
    rw [bindNames]
    exact .bind ih fun _ => .ok _
  | unary op operand ih =>
    rw [bindNames]
    exact .bind ih fun _ => .ok _
  | binary op left right ihl ihr =>
    rw [bindNames]
    exact .bind ihl fun _ => .bind ihr fun _ => .ok _
  | group items long ih =>
    rw [bindNames]
    refine .bind ?_ fun _ => .ok _
    induction items with
    | nil => exact .ok _
    | cons item rest ihRest =>
      rw [bindAll]
      have hrest := ihRest fun other hother => ih other (List.mem_cons_of_mem _ hother)
      exact .bind (ih item List.mem_cons_self) fun _ => .bind hrest fun _ => .ok _
  | text content petscii => exact .ok _
  | immediate operand ih =>
    rw [bindNames]
    exact .bind ih fun _ => .ok _

theorem MacroCall.argument_agrees (call : MacroCall) (ident : String) :
    Agrees (call.argument ident) := by
  unfold MacroCall.argument
  split
  case h_1 =>
    refine .ite (.error rfl) ?_
    split
    · exact .ok _
    · split
      · exact .ok _
      · exact .error rfl
    · split
      · exact .ok _
      · exact .error rfl
    · exact .ok _
  case h_2 =>
    split
    · exact .ok _
    · exact .ok _

theorem bindArguments_agrees (calls : List MacroCall) (operand : Expr) :
    Agrees (bindArguments calls operand) := by
  cases calls with
  | nil => exact .ok _
  | cons call outer => exact Expr.bindNames_avoids (fun name => call.argument_agrees name.ident) _

/-- Equates can always be bound. -/
theorem bindEquates_avoids {bad : Fault → Bool} (equates : Table Number) (address : Int)
    (fallback : Option Number) (operand : Expr) :
    Avoids bad (bindEquates equates address fallback operand) :=
  Expr.bindNames_avoids (fun _ => .ok _) _

end Expressions

/-! ## Building -/

theorem nameFault_words {equates : Table Number} {macros : Table MacroDefinition}
    {isLabel : Bool} {name : String} {fault : Fault}
    (h : nameFault? equates macros isLabel name = some fault) : fault.isOfWords = true := by
  unfold nameFault? at h
  repeat' split at h
  all_goals cases h
  all_goals rfl

theorem expectNone_words (operands : List Expr) (cause : CountFault) :
    ReadsWords (expectNone operands cause) :=
  .ite (.ok _) (.error rfl)

theorem expectOne_words (operands : List Expr) (cause : CountFault) :
    ReadsWords (expectOne operands cause) := by
  unfold expectOne
  split
  · exact .ok _
  · exact .error rfl

theorem expectFileName_words (directive : String) (operands : List Expr) :
    ReadsWords (expectFileName directive operands) := by
  refine .bind (expectOne_words _ _) fun operand => ?_
  split
  · exact .ok _
  · exact .error rfl

theorem segmentValue_words (equates : Table Number) (operand : Expr) (position : Nat) :
    ReadsWords (segmentValue equates operand position) := by
  refine .bind (bindEquates_avoids _ _ _ _) fun bound => ?_
  split
  · exact .ok _
  · exact .unlessTrap rfl rfl

theorem segmentOperation_words (equates : Table Number) (operands : List Expr) :
    ReadsWords (segmentOperation equates operands) := by
  unfold segmentOperation
  split
  · split
    · exact .bind (segmentValue_words _ _ _) fun _ => .bind (segmentValue_words _ _ _) fun _ =>
        .bind (segmentValue_words _ _ _) fun _ => .ok _
    · exact .error rfl
  · exact .error rfl

namespace FlowStatement

theorem readCondition_words (keyword : String) (operands : List Expr) :
    ReadsWords (readCondition keyword operands) := by
  unfold readCondition
  repeat' split
  · exact .ok _
  · exact .error rfl
  · exact .error rfl

theorem read_words (keyword : String) (operands : List Expr) :
    ReadsWords (read keyword operands) := by
  have hbare (word : String) (statement : FlowStatement) :
      ReadsWords (bare word statement operands) :=
    .ite (.ok _) (.error rfl)
  unfold read
  split
  case h_1 | h_2 | h_3 => exact .map (readCondition_words _ _)
  case h_4 =>
    repeat' split
    · exact .ok _
    · exact .error rfl
    · exact .error rfl
  case h_5 =>
    split
    · exact .ite (.ok _) (.error rfl)
    · exact .error rfl
  all_goals exact hbare _ _

end FlowStatement

namespace BuildState

variable (state : BuildState)

theorem declareGlobals_words (location : Location) (position : Nat) (operands : List Expr) :
    ReadsWords (declareGlobals location position operands state) := by
  induction operands generalizing position state with
  | nil => exact .ok _
  | cons operand rest ih =>
    cases operand with
    | name found => exact .ite (.error rfl) (.ite (.error rfl) (ih _ _))
    | _ => exact .error rfl

theorem parameterNames_words (operands : List Expr) : ReadsWords (parameterNames operands) := by
  induction operands with
  | nil => exact .ok _
  | cons operand rest ih =>
    cases operand with
    | name found => exact .bind ih fun _ => .ok _
    | _ => exact .error rfl

theorem beginMacro_agrees (label : Option (Spanned String)) (variadic : Bool)
    (operands : List Expr) (location : Location) :
    Agrees (state.beginMacro label variadic operands location) := by
  unfold beginMacro
  split
  case h_1 => exact .error rfl
  case h_2 =>
    refine .bind (parameterNames_words _).agrees fun parameters => ?_
    split
    case h_1 hfault => exact .error (Fault.not_conflict_of_isOfWords _ (nameFault_words hfault))
    case h_2 => exact .ite (.error rfl) (.ok _)

/-- Closing a block fails because another block is open, or none is. -/
theorem closing_agrees (operands : List Expr) (condition : Option Expr) (location : Location) :
    Agrees (state.endMacro operands) ∧ Agrees (state.nextArm condition location) ∧
      Agrees state.endConditional ∧ Agrees state.endLoop := by
  refine ⟨.ite (.error rfl) ?_, ?_, ?_, ?_⟩
  · split
    · exact .ok _
    · exact .error rfl
    · exact .error rfl
  · unfold nextArm
    split
    · exact .ok _
    · exact .error rfl
    · exact .error rfl
    · exact .error rfl
  · unfold endConditional
    split
    · exact .ok _
    · exact .error rfl
    · exact .error rfl
  · unfold endLoop
    split
    · exact .ok _
    · exact .error rfl
    · exact .error rfl

/-- A directive that closes no block only fails for its words; one that does fails as closing the
block does. -/
theorem directive_avoids {bad : Fault → Bool}
    (hwords : ∀ fault, fault.isOfWords = true → bad fault = false) (name : String)
    (label : Option (Spanned String)) (ellipsis : Bool) (operands : List Expr) (location : Location)
    (hbegin : name = "MACRO" → Avoids bad (state.beginMacro label ellipsis operands location))
    (hclosed : name = "ENDMACRO" → Avoids bad (state.endMacro operands))
    (harm : name = "ELIF" ∨ name = "ELSE" →
      ∀ condition, Avoids bad (state.nextArm condition location))
    (hconditional : name = "ENDIF" → Avoids bad state.endConditional)
    (hloop : name = "ENDVALOOP" → Avoids bad state.endLoop) :
    Avoids bad (state.directive name label ellipsis operands location) := by
  have hnone (cause : CountFault) : Avoids bad (expectNone operands cause) :=
    (expectNone_words _ _).avoids hwords
  have hone (cause : CountFault) : Avoids bad (expectOne operands cause) :=
    (expectOne_words _ _).avoids hwords
  unfold directive
  split
  case h_1 | h_2 | h_3 | h_4 => exact .bind (hnone _) fun _ => .ok _
  case h_5 | h_6 | h_7 => exact .ite (.error (hwords _ rfl)) (.ok _)
  case h_8 | h_9 =>
    split
    · exact .ok _
    · exact .error (hwords _ rfl)
  case h_10 =>
    exact .ite (.error (hwords _ rfl)) ((state.declareGlobals_words _ _ _).avoids hwords)
  case h_12 => exact .bind ((expectFileName_words _ _).avoids hwords) fun _ => .ok _
  case h_13 => exact hbegin rfl
  case h_14 => exact hclosed rfl
  case h_15 | h_17 => exact .bind (hone _) fun _ => .ok _
  case h_16 => exact .bind ((segmentOperation_words _ _).avoids hwords) fun _ => .ok _
  case h_18 => exact .bind (hone _) fun condition => harm (.inl rfl) (some condition)
  case h_19 => exact .bind (hnone _) fun _ => harm (.inr rfl) none
  case h_20 => exact .bind (hnone _) fun _ => hconditional rfl
  case h_22 => exact .bind (hnone _) fun _ => hloop rfl
  all_goals exact .bind (hnone _) fun _ => .ok _

theorem directive_agrees (name : String) (label : Option (Spanned String)) (ellipsis : Bool)
    (operands : List Expr) (location : Location) :
    Agrees (state.directive name label ellipsis operands location) := by
  have hclosing (condition : Option Expr) := state.closing_agrees operands condition location
  exact state.directive_avoids Fault.not_conflict_of_isOfWords name label ellipsis operands location
    (fun _ => state.beginMacro_agrees _ _ _ _) (fun _ => (hclosing none).1)
    (fun _ condition => (hclosing condition).2.1) (fun _ => (hclosing none).2.2.1)
    (fun _ => (hclosing none).2.2.2)

theorem plainStatement_words (statement : Statement) (location : Location) :
    ReadsWords (state.plainStatement statement location) :=
  .ite (.ok _) (.ite (.bind (FlowStatement.read_words _ _) fun _ => .ok _) (.ok _))

theorem defineEquate_agrees (name : String) (value : Expr) :
    Agrees (state.defineEquate name value) := by
  refine .ite (.error rfl) (.ite (.error rfl) ?_)
  split
  case h_1 hfault => exact .error (Fault.not_conflict_of_isOfWords _ (nameFault_words hfault))
  case h_2 =>
    refine .bind (bindEquates_avoids _ _ _ _) fun bound => ?_
    split
    case h_1 => exact .ok _
    case h_2 cause hcause => exact .unlessTrap rfl (bound.collapse_agrees _ cause hcause)

end BuildState

/-- A failure whose fault is about a second value for a name. -/
def BuildFailure.isConflict (error : BuildFailure) : Bool := error.failure.fault.isConflict

section Lines

variable {search : AssetSearch} {deeper : Option LineBuilder}

theorem BuildState.run_agrees {α : Type} (state : BuildState) (location : Location)
    {step : Except Fault α} (h : Agrees step) :
    Avoids BuildFailure.isConflict (state.run location step) :=
  h.mapError fun _ hfault => hfault

theorem ofAsset_words (path : String) (cause : AssetError) :
    (Fault.ofAsset path cause).isOfWords = true := by
  unfold Fault.ofAsset
  split
  · rfl
  · rfl

theorem includeFile_agrees
    (hdeeper : ∀ build, deeper = some build → ∀ lines state,
      Avoids BuildFailure.isConflict (build lines state)) (operands : List Expr)
    (location : Location) (state : BuildState) :
    Avoids BuildFailure.isConflict (includeFile search deeper operands location state) := by
  have hasset {α : Type} (path : String) (step : Except AssetError α) :
      Agrees (step.mapError (Fault.ofAsset path)) := by
    intro fault h
    obtain ⟨cause, -, rfl⟩ := mapError_eq_error.mp h
    exact Fault.not_conflict_of_isOfWords _ (ofAsset_words path cause)
  refine .bind (state.run_agrees _ (expectFileName_words _ _).agrees) fun path => ?_
  refine .bind (state.run_agrees _ (hasset _ _)) fun asset => ?_
  refine .bind (state.run_agrees _ (hasset _ _)) fun text => ?_
  refine .ite (state.run_agrees _ (.error rfl)) ?_
  cases hbuild : deeper with
  | none => exact state.run_agrees _ (.error rfl)
  | some build =>
    refine .bind (BuildState.run_agrees _ _ ?_) fun read => hdeeper build hbuild _ _
    intro fault h
    obtain ⟨reports, -, rfl⟩ := mapError_eq_error.mp h
    rfl

theorem buildLine_agrees
    (hdeeper : ∀ build, deeper = some build → ∀ lines state,
      Avoids BuildFailure.isConflict (build lines state)) (state : BuildState) (line : Line) :
    Avoids BuildFailure.isConflict (buildLine search deeper state line) := by
  unfold buildLine
  split
  case h_1 => exact state.run_agrees _ (state.defineEquate_agrees _ _)
  case h_2 label statements _ =>
    refine .foldlM (fun state statement => ?_) _
    refine .ite (state.run_agrees _ (.error rfl)) ?_
    split
    · split
      · exact includeFile_agrees hdeeper _ _ _
      · exact state.run_agrees _ (state.directive_agrees _ _ _ _ _)
    · exact state.run_agrees _ (state.plainStatement_words _ _).agrees

theorem buildLines_agrees (search : AssetSearch) (depth : Nat) (lines : List Line)
    (state : BuildState) :
    Avoids BuildFailure.isConflict (buildLines search depth lines state) := by
  induction depth generalizing lines state with
  | zero => exact .foldlM (fun state line => buildLine_agrees (by simp) state line) state
  | succ depth ih =>
    refine .foldlM (fun state line => buildLine_agrees (fun build hbuild => ?_) state line) state
    cases hbuild
    exact ih

/-- Building a program never finds a name with two values. -/
theorem buildProgram_agrees (search : AssetSearch) (main : SourceFile) (lines : List Line) :
    Avoids BuildFailure.isConflict (buildProgram search main lines) := by
  refine .bind (buildLines_agrees _ _ _ _) fun state => ?_
  split
  · exact state.run_agrees _ (.error rfl)
  · exact .ok _

end Lines

/-! ## Laying out -/

theorem requireSegment_agrees (layout : Layout) : Agrees layout.requireSegment := by
  intro fault h
  rw [Layout.requireSegment_eq_error h]
  rfl

theorem occupy_agrees (layout : Layout) (size : Nat) : Agrees (layout.occupy size) := by
  refine .ite (.ok _) fun fault h => ?_
  rcases Layout.advance_eq_error h with rfl | ⟨name, rfl⟩
  · rfl
  · rfl

section Placing

variable (environment : Environment) (calls : List MacroCall) (location : Location)

theorem resolveOperand_agrees (layout : Layout) (operand : Expr) :
    Agrees (resolveOperand environment calls location layout operand) :=
  .bind (bindArguments_agrees _ _) fun _ => .bind (bindEquates_avoids _ _ _ _) fun _ =>
    .bind (.bind (requireSegment_agrees _) fun _ => .ok _) fun _ => .ok _

theorem resolveOperands_agrees (operands : List Expr) (layout : Layout) :
    Agrees (resolveOperands environment calls location operands layout) := by
  induction operands generalizing layout with
  | nil => exact .ok _
  | cons operand rest ih =>
    exact .bind (resolveOperand_agrees _ _ _ _ _) fun _ => .bind (ih _) fun _ => .ok _

theorem placeData_agrees (width : DataWidth) (operands : List Expr) (layout : Layout) :
    Agrees (placeData environment calls location width operands layout) := by
  induction operands generalizing layout with
  | nil => exact .ok _
  | cons operand rest ih =>
    refine .bind ?_ fun _ => .bind (ih _) fun _ => .ok _
    cases operand with
    | text content petscii => exact .ite (.ok _) (.error rfl)
    | _ => exact .bind (resolveOperand_agrees _ _ _ _ _) fun _ => .ok _

theorem caseValue_agrees (address : Int) (operand : Expr) :
    Agrees (caseValue environment calls address operand) := by
  refine .bind ((bindArguments_agrees _ _).mapError fun _ h => h) fun _ => ?_
  refine .bind ((bindEquates_avoids _ _ _ _).mapError fun _ h => h) fun bound => ?_
  split
  case h_1 => exact .ok _
  case h_2 cause hcause => exact .unlessTrap rfl (bound.collapse_agrees _ cause hcause)

theorem closeFlow_agrees (layout : Layout) (keyword : String) :
    Agrees (layout.closeFlow keyword) := by
  unfold Layout.closeFlow
  split
  · exact .ok _
  · exact .error rfl

theorem placeFlow_agrees (layout : Layout) (statement : FlowStatement) :
    Agrees (placeFlow environment calls location layout statement) := by
  refine .bind (requireSegment_agrees _) fun _ => ?_
  cases statement with
  | ifStart | loopStart | whileStart | switchStart => exact .ok _
  | elseStart | ifEnd | loopUntil | whileEnd | switchEnd =>
    refine .bind (closeFlow_agrees _ _) fun closed => ?_
    dsimp only
    split <;> first | exact .ok _ | exact .error rfl
  | loopForever =>
    refine .bind (closeFlow_agrees _ _) fun closed => ?_
    dsimp only
    split
    · exact .ite (.ok _) (.ite (.ok _) (.error rfl))
    · exact .error rfl
  | caseStart operand =>
    refine .bind (closeFlow_agrees _ _) fun closed => ?_
    dsimp only
    split
    · refine .bind (caseValue_agrees _ _ _ _) fun found => .bind ?_ fun _ => .ok _
      exact .ite (.ok _) (.ite (.ok _) (.error rfl))
    · exact .error rfl

theorem placeOperation_agrees (layout : Layout) (operation : Operation) :
    Agrees (placeOperation environment calls location layout operation) := by
  cases operation with
  | createSegment name start size fileOffset =>
    exact .bind (.ite (.error rfl) (.ok _)) fun _ => .ok _
  | changeSegment name =>
    refine .bind (fun fault h => ?_) fun _ => .ok _
    rw [Layout.enter_eq_error h]
    rfl
  | setOrigin operand =>
    refine .bind (requireSegment_agrees _) fun _ => .bind ?_ fun _ => .ok _
    refine .bind (bindArguments_agrees _ _) fun _ => .bind (Expr.bindNames_avoids ?_ _) fun _ => ?_
    · intro name
      refine .ite (.ok _) ?_
      split
      · exact .ok _
      · exact .error rfl
    · split
      · exact .ok _
      · exact .unlessTrap rfl rfl
  | setWidth register wide | includeSource path => exact .ok _
  | declareLabel name =>
    refine .bind (.bind (requireSegment_agrees _) fun _ => .ite (.ok _) ?_) fun _ => .ok _
    dsimp only
    split
    case h_1 hfault => exact .error (Fault.not_conflict_of_isOfWords _ (nameFault_words hfault))
    case h_2 => exact .ok _
  | instruction mnemonic operands =>
    refine .ite (.error rfl) ?_
    refine .bind (resolveOperands_agrees _ _ _ _ _) fun _ => .bind ?_ fun _ => .ok _
    unfold Opcode.select
    split
    · exact .ok _
    · exact .error rfl
  | data width operands => exact .bind (placeData_agrees _ _ _ _ _ _) fun _ => .ok _
  | fill wide count value =>
    refine .bind (resolveOperand_agrees _ _ _ _ _) fun _ =>
      .bind (resolveOperand_agrees _ _ _ _ _) fun _ => .bind ?_ fun _ => .ok _
    unfold fillCount
    dsimp only
    split
    · exact .ite (.ok _) (.error rfl)
    · exact .unlessTrap rfl rfl
  | includeBinary path =>
    refine .bind (requireSegment_agrees _) fun _ => .bind (fun fault h => ?_) fun _ => .ok _
    obtain ⟨cause, -, rfl⟩ := mapError_eq_error.mp h
    exact Fault.not_conflict_of_isOfWords _ (ofAsset_words path cause)
  | setGlobal name =>
    exact .bind (.bind (requireSegment_agrees _) fun _ => .ite (.ok _) (.ok _)) fun _ => .ok _
  | setGlobalAll => exact .bind (.bind (requireSegment_agrees _) fun _ => .ok _) fun _ => .ok _
  | flow statement => exact .bind (placeFlow_agrees _ _ _ _ _) fun _ => .ok _

/-- A failure whose fault is about a second value for a name. -/
def Failure.isConflict (failure : Failure) : Bool := failure.fault.isConflict

theorem failingAt_agrees {α : Type} {step : Except Fault α} (h : Agrees step) :
    Avoids Failure.isConflict (failingAt location step) :=
  h.mapError fun _ hfault => hfault

theorem conditionHolds_agrees (address : Int) (condition : Option Expr) :
    Agrees (conditionHolds environment calls address condition) := by
  unfold conditionHolds
  split
  case h_1 => exact .ok _
  case h_2 =>
    refine .bind (bindArguments_agrees _ _) fun _ => ?_
    refine .bind (bindEquates_avoids _ _ _ _) fun bound => ?_
    split
    case h_1 => exact .ok _
    case h_2 cause hcause => exact .error ((bound.collapse_agrees _).map cause hcause)

theorem chosenBody_agrees (address : Int) (arms : List ConditionalArm) :
    Avoids Failure.isConflict (chosenBody environment calls address arms) := by
  induction arms with
  | nil => exact .ok _
  | cons arm rest ih =>
    cases arm with
    | mk condition body location =>
      exact .bind (failingAt_agrees _ (conditionHolds_agrees _ _ _ _)) fun _ => .ite (.ok _) ih

theorem openCall_agrees (name : String) (operands : List Expr) :
    Agrees (openCall environment calls name operands) := by
  unfold openCall
  split
  · exact .error rfl
  · exact .ite (.error rfl) (.ite (.error rfl)
      (.bind (.mapM fun _ => bindArguments_agrees _ _) fun _ => .ok _))

theorem Task.advance_agrees (layout : Layout) (task : Task) :
    Avoids Failure.isConflict (task.advance environment layout) := by
  cases task with
  | leave location => exact .ok _
  | action calls action =>
    cases action with
    | operation operation location =>
      exact .bind (failingAt_agrees _ (placeOperation_agrees _ _ _ _ _)) fun _ =>
        .bind (failingAt_agrees _ (occupy_agrees _ _)) fun _ => .ok _
    | callMacro name operands location =>
      exact .bind (failingAt_agrees _ (openCall_agrees _ _ _ _)) fun _ => .ok _
    | conditional arms location => exact .bind (chosenBody_agrees _ _ _ _) fun _ => .ok _
    | argumentLoop body location =>
      cases calls with
      | nil => exact .error rfl
      | cons call outer => exact .ok _

/-- Laying a program out never finds a name with two values. -/
theorem layoutProgram_agrees (actions : List Action) :
    Avoids Failure.isConflict (layoutProgram environment actions) := by
  intro failure h
  rcases layoutProgram_eq_error h with ⟨found, task, others, -, hfails⟩ | ⟨_, _, _, -, -, rfl⟩
  · exact Task.advance_agrees environment found task failure hfails
  · rfl

end Placing

/-! ## Whole assemblies -/

theorem resolveAll_agrees (layout : Layout) : Avoids Failure.isConflict layout.resolveAll := by
  refine .bind (.mapM fun entry => .mapM fun reference => ?_) fun _ => .ok _
  unfold Layout.resolve
  dsimp only
  split
  · exact .error rfl
  · split
    · exact .error rfl
    · exact .ok _

/-- Emitting an operation never finds a name with two values. -/
theorem Emission.operation_agrees (emission : Emission) (labels : List Resolution)
    (placed : PlacedOperation) (size : Nat) : Agrees (emission.operation labels placed size) := by
  refine .bind (fun fault h => ?_) fun emitted => .ite (.error rfl) (.bind ?_ fun _ => .ok _)
  · rcases emitOperation_faults labels emission.layout placed fault h with hencoding | hmisses
    · cases fault <;> first | rfl | cases hencoding
    · cases hmisses with
      | operand mem fails =>
        obtain ⟨cause, hcause, rfl⟩ := mapError_eq_error.mp fails
        have hagrees := Expr.collapse_agrees _ _ cause hcause
        cases cause <;> first | rfl | exact hagrees
      | enter fails =>
        rw [Layout.enter_eq_error fails]
        rfl
      | origin fails => exact requireSegment_agrees _ fault fails
      | caseValue reports fails =>
        subst reports
        exact Expr.collapse_agrees _ _ _ fails
      | flow control unserved => cases fault <;> first | rfl | cases control
  · intro fault h
    rcases Layout.place_eq_error h with rfl | ⟨name, rfl⟩ | ⟨name, address, rfl⟩ <;> rfl

theorem emitProgram_agrees (layout : Layout) (labels : List Resolution) (steps : List Step) :
    Avoids Failure.isConflict (emitProgram layout labels steps) := by
  intro failure h
  rw [emitProgram_eq_emitEvents, emitEvents_eq_error] at h
  obtain ⟨before, placed, size, after, reached, -, -, hfault⟩ := h
  exact reached.operation_agrees labels placed size failure.fault hfault

/-- Emitting a program never finds a name with two values, whether it is listed or not. -/
theorem Program.emit_agrees (program : Program) (search : AssetSearch) (listing : Bool) :
    Avoids Failure.isConflict (program.emit search listing) := by
  have hlisted : Avoids Failure.isConflict (program.emit search true) :=
    .bind (layoutProgram_agrees _ _) fun laid => .bind (resolveAll_agrees _) fun labels =>
      emitProgram_agrees _ _ _
  intro failure h
  cases hemit : program.emit search true with
  | error cause =>
    rw [Program.emit_eq_error hemit, Except.error.injEq] at h
    exact h ▸ hlisted cause hemit
  | ok emission =>
    rw [program.emit_eq, hemit] at h
    cases h

/-- Whether an assembly failed because of a second value for a name. -/
def AssemblyError.isConflict (error : AssemblyError) : Bool :=
  match error.fault with
  | .unreadable _ => false
  | .failed failure => failure.isConflict

/-- No assembly finds a name with two values. -/
theorem assemble_agrees (search : AssetSearch) (main : SourceFile) (listing : Bool) :
    Avoids AssemblyError.isConflict (assemble search main listing) := by
  refine .bind (fun error h => ?_) fun read => ?_
  · obtain ⟨reports, -, rfl⟩ := mapError_eq_error.mp h
    rfl
  · refine .bind ?_ fun assembly => .ok _
    refine .bind ((buildProgram_agrees _ _ _).mapError fun _ h => h) fun program => ?_
    exact .bind (.mapError (program.emit_agrees search listing) fun _ h => h) fun emission => .ok _

end Asm65816
