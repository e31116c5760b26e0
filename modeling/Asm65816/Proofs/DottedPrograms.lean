import Asm65816.Proofs.BareWalks
import Asm65816.Proofs.DottedOperands
import Asm65816.Proofs.UnselectedArms

/-!
# A `.` in the place of a label

Labels that have the current address where they are used can be replaced by a `.` in the sources of
a program. In the first bank, and where the field has more than one byte, the program assembles as
before. Elsewhere it may not, as a `.` keeps the bank of the address and always states two bytes.
-/

namespace Asm65816

/-! ## Replacing operands -/

/-- Operands with a `.` in the place of those that are picked. -/
def dotOperands (pick : Nat → Bool) (operands : List Expr) : List Expr :=
  operands.mapIdx fun index operand => if pick index then .dot else operand

/-- Whether the directive of a name takes at least two bytes for the operand at `index`, and takes
its value when the bytes are emitted. -/
def directiveTakesWord (name : String) (index : Nat) : Bool :=
  match name with
  | "DW" | "DL" => true
  | "FILLW" => index == 1
  | _ => false

/-- Whether the operand of a statement at `index` is one of an instruction or of a directive that
takes at least two bytes for it. -/
def Statement.takesWord (statement : Statement) (index : Nat) : Bool :=
  match statement.directive? with
  | none => Opcode.isMnemonic statement.name.node
  | some name => directiveTakesWord name index

/-- A statement with a `.` in the place of the operands that are picked. -/
def Statement.dotted (pick : Nat → Bool) (statement : Statement) : Statement :=
  { statement with
    operands := dotOperands (fun index => pick index && statement.takesWord index)
      statement.operands }

/-- The operand of an operation at `index`, if it is one of an instruction or takes at least two
bytes. -/
def Operation.wordOperand? : Operation → Nat → Option Expr
  | instruction mnemonic operands, index =>
    if Opcode.isMnemonic mnemonic then operands[index]? else none
  | data width operands, index => if width = .byte then none else operands[index]?
  | fill true _ value, 1 => some value
  | _, _ => none

/-- An operation with a `.` in the place of the operands that are picked. -/
def Operation.dotted (pick : Nat → Bool) : Operation → Operation
  | instruction mnemonic operands =>
    instruction mnemonic (dotOperands (fun index => pick index && Opcode.isMnemonic mnemonic)
      operands)
  | data width operands =>
    data width (dotOperands (fun index => pick index && width != .byte) operands)
  | fill true count value => fill true count (if pick 1 then .dot else value)
  | operation => operation

theorem dotOperands_cons (pick : Nat → Bool) (operand : Expr) (rest : List Expr) :
    dotOperands pick (operand :: rest) =
      (if pick 0 then .dot else operand) :: dotOperands (fun index => pick (index + 1)) rest :=
  List.mapIdx_cons

theorem dotOperands_none {pick : Nat → Bool} (h : ∀ index, pick index = false)
    (operands : List Expr) : dotOperands pick operands = operands := by
  induction operands generalizing pick with
  | nil => rfl
  | cons operand rest ih =>
    rw [dotOperands_cons, h 0, ih fun index => h (index + 1)]
    rfl

theorem isEmpty_dotOperands (pick : Nat → Bool) (operands : List Expr) :
    (dotOperands pick operands).isEmpty = operands.isEmpty := by
  cases operands with
  | nil => rfl
  | cons operand rest => rw [dotOperands_cons, List.isEmpty_cons, List.isEmpty_cons]

/-- What holds of picked operands and a `.`, and of the other operands as they are. -/
theorem forall₂_dotOperands {related : Expr → Expr → Prop} {pick : Nat → Bool}
    (hsame : ∀ operand, related operand operand) {operands : List Expr}
    (h : ∀ index operand, pick index = true → operands[index]? = some operand →
      related operand .dot) : List.Forall₂ related operands (dotOperands pick operands) := by
  induction operands generalizing pick with
  | nil => exact .nil
  | cons operand rest ih =>
    rw [dotOperands_cons]
    refine .cons ?_ (ih fun index found hpick hfound => h (index + 1) found hpick hfound)
    split
    case isTrue hpick => exact h 0 operand hpick rfl
    case isFalse => exact hsame operand

/-- The picked operands of an operation may be replaced where each of them is a label at the
cursor. -/
theorem Operation.dots_dotted {final : Layout} {environment : Environment}
    {calls : List MacroCall} {cursor : Cursor} {pick : Nat → Bool} {operation : Operation}
    (h : ∀ index operand, pick index = true → operation.wordOperand? index = some operand →
      ∀ word : Prop, word → final.DotsWritten environment calls cursor word operand .dot) :
    final.DotsOperation environment calls cursor operation (operation.dotted pick) := by
  cases operation with
  | instruction mnemonic operands =>
    refine .instruction (forall₂_dotOperands .same fun index operand hpick hoperand => ?_)
    obtain ⟨hpick, hmnemonic⟩ := Bool.and_eq_true_iff.mp hpick
    refine h index operand hpick ?_ True trivial
    rw [wordOperand?, if_pos hmnemonic, hoperand]
  | data width operands =>
    refine .data (forall₂_dotOperands .same fun index operand hpick hoperand => ?_)
    obtain ⟨hpick, hwidth⟩ := Bool.and_eq_true_iff.mp hpick
    have hword : width ≠ .byte := by simpa using hwidth
    refine h index operand hpick ?_ _ hword
    rw [wordOperand?, if_neg hword, hoperand]
  | fill wide count value =>
    cases wide with
    | false => exact .fill (.same value)
    | true =>
      refine .fill ?_
      split
      case isTrue hpick => exact h 1 value hpick rfl _ rfl
      case isFalse => exact .same value
  | _ => exact .silent rfl

/-! ## Building -/

/-- A mnemonic is one of the table, in some letter case. -/
theorem Opcode.exists_sameLetters {name : String} (h : Opcode.isMnemonic name = true) :
    ∃ entry ∈ Opcode.table, sameLetters entry.mnemonic name = true := by
  have hsome : Opcode.entries name ≠ [] := by
    simpa [Opcode.isMnemonic] using h
  obtain ⟨entry, hentry⟩ := List.exists_mem_of_ne_nil _ hsome
  obtain ⟨hmem, hspelled⟩ := List.mem_filter.mp hentry
  refine ⟨entry, hmem, ?_⟩
  simp only [sameLetters, eq_of_beq hspelled, lowerAscii, String.toList_ofList, List.map_map,
    Function.comp_def, toUpper_toLower, beq_self_eq_true]

theorem length_of_sameLetters {name other : String} (h : sameLetters name other = true) :
    name.toList.length = other.toList.length := by
  simpa only [List.length_map] using congrArg List.length (eq_of_beq h)

/-- No mnemonic starts a flow statement, as none of these words has three letters. -/
theorem isKeyword_of_isMnemonic {name : String} (h : Opcode.isMnemonic name = true) :
    FlowStatement.isKeyword name = false := by
  have hmnemonics : ∀ entry ∈ Opcode.table, entry.mnemonic.toList.length = 3 := by
    decide +kernel
  have hkeywords : ∀ keyword ∈ FlowStatement.keywords, keyword.toList.length ≠ 3 := by
    decide +kernel
  obtain ⟨entry, hentry, hsame⟩ := Opcode.exists_sameLetters h
  refine List.any_eq_false.mpr fun keyword hkeyword hletters => hkeywords keyword hkeyword ?_
  rw [length_of_sameLetters hletters, ← length_of_sameLetters hsame, hmnemonics entry hentry]

section Building

variable (chosen : Location → Nat → Bool)

/-- The change that replaces the operands that are chosen at each location. -/
def dotChange : OperationChange := fun location operation => operation.dotted (chosen location)

/-- The edit that does the same to the statements. -/
def dotEdit : StatementEdit := fun location statement => statement.dotted (chosen location)

variable {state next : BuildState}

/-- A directive with replaced operands builds the operations with replaced operands. -/
theorem directive_dotted {name : String} {label : Option (Spanned String)} {ellipsis : Bool}
    {operands : List Expr} {location : Location}
    (h : state.directive name label ellipsis operands location = .ok next) :
    (state.mapOperations (dotChange chosen)).directive name label ellipsis
        (dotOperands (fun index => chosen location index && directiveTakesWord name index)
          operands) location =
      .ok (next.mapOperations (dotChange chosen)) := by
  have hsame {name : String} (hname : ∀ index, directiveTakesWord name index = false) :
      dotOperands (fun index => chosen location index && directiveTakesWord name index)
        operands = operands :=
    dotOperands_none (fun index => by rw [hname, Bool.and_false]) operands
  have hadd {operation operation' : Operation}
      (hdotted : operation.dotted (chosen location) = operation') :
      Except.ok ((state.mapOperations (dotChange chosen)).add operation' location) =
        (Except.ok ((state.add operation location).mapOperations (dotChange chosen)) :
          Except Fault BuildState) := by
    rw [BuildState.mapOperations_add, ← hdotted]
    rfl
  have hmapped {step step' : Except Fault BuildState}
      (hstep : step' = step.map (BuildState.mapOperations (dotChange chosen)))
      (h : step = .ok next) : step' = .ok (next.mapOperations (dotChange chosen)) := by
    rw [hstep, h]
    rfl
  have hequates : (state.mapOperations (dotChange chosen)).equates = state.equates := rfl
  unfold BuildState.directive at h
  split at h
  case h_1 | h_2 | h_3 | h_4 | h_11 =>
    rw [hsame fun _ => rfl]
    obtain ⟨_, hnone, h⟩ := bind_eq_ok.mp h
    cases h
    simp only [BuildState.directive, hnone]
    exact hadd rfl
  case h_5 | h_6 | h_7 =>
    obtain ⟨hsome, h⟩ := refuse_eq_ok.mp h
    cases h
    simp only [BuildState.directive, isEmpty_dotOperands, hsome]
    exact hadd rfl
  case h_8 =>
    rw [hsame fun index => rfl]
    split at h
    case h_1 =>
      cases h
      exact hadd rfl
    case h_2 => cases h
  case h_9 =>
    split at h
    case h_1 count value =>
      cases h
      have hdotted :
          dotOperands (fun index => chosen location index && directiveTakesWord "FILLW" index)
            [count, value] = [count, if chosen location 1 then .dot else value] := by
        simp [dotOperands, directiveTakesWord]
      rw [hdotted]
      exact hadd rfl
    case h_2 => cases h
  case h_10 =>
    rw [hsame fun _ => rfl]
    obtain ⟨hsome, h⟩ := refuse_eq_ok.mp h
    simp only [BuildState.directive, hsome]
    exact hmapped (BuildState.declareGlobals_mapOperations _ _ (fun _ _ => rfl) _ _ _) h
  case h_12 | h_15 =>
    rw [hsame fun _ => rfl]
    obtain ⟨found, hfound, h⟩ := bind_eq_ok.mp h
    cases h
    simp only [BuildState.directive, hfound]
    exact hadd rfl
  case h_13 =>
    rw [hsame fun _ => rfl]
    exact hmapped (BuildState.beginMacro_mapOperations _ _ _ _ _ _) h
  case h_14 =>
    rw [hsame fun _ => rfl]
    exact hmapped (BuildState.endMacro_mapOperations _ _ _) h
  case h_16 =>
    rw [hsame fun _ => rfl]
    obtain ⟨operation, hoperation, h⟩ := bind_eq_ok.mp h
    cases h
    simp only [BuildState.directive, hequates, hoperation]
    obtain ⟨segmentName, start, size, fileOffset, rfl⟩ := segmentOperation_eq_ok hoperation
    exact hadd rfl
  case h_17 =>
    rw [hsame fun _ => rfl]
    obtain ⟨condition, hcondition, h⟩ := bind_eq_ok.mp h
    cases h
    simp only [BuildState.directive, hcondition]
    rfl
  case h_18 =>
    rw [hsame fun _ => rfl]
    obtain ⟨condition, hcondition, h⟩ := bind_eq_ok.mp h
    simp only [BuildState.directive, hcondition]
    exact hmapped (BuildState.nextArm_mapOperations _ _ _ _) h
  case h_19 =>
    rw [hsame fun _ => rfl]
    obtain ⟨_, hnone, h⟩ := bind_eq_ok.mp h
    simp only [BuildState.directive, hnone]
    exact hmapped (BuildState.nextArm_mapOperations _ _ _ _) h
  case h_20 =>
    rw [hsame fun _ => rfl]
    obtain ⟨_, hnone, h⟩ := bind_eq_ok.mp h
    simp only [BuildState.directive, hnone]
    exact hmapped (BuildState.endConditional_mapOperations _ _) h
  case h_21 =>
    rw [hsame fun _ => rfl]
    obtain ⟨_, hnone, h⟩ := bind_eq_ok.mp h
    cases h
    simp only [BuildState.directive, hnone]
    rfl
  case h_22 =>
    rw [hsame fun _ => rfl]
    obtain ⟨_, hnone, h⟩ := bind_eq_ok.mp h
    simp only [BuildState.directive, hnone]
    exact hmapped (BuildState.endLoop_mapOperations _ _) h
  case h_23 =>
    obtain ⟨_, hnone, h⟩ := bind_eq_ok.mp h
    cases h
    rw [hsame fun index => ?_]
    · simp only [BuildState.directive, hnone]
      exact hadd rfl
    · unfold directiveTakesWord
      split <;> first | contradiction | rfl

/-- An instruction with replaced operands builds the operation with replaced operands. -/
theorem plainStatement_dotted {statement : Statement} {location : Location}
    (hspares : state.SparesWords) (hplain : statement.directive? = none)
    (h : state.plainStatement statement location = .ok next) :
    (state.mapOperations (dotChange chosen)).plainStatement (statement.dotted (chosen location))
        location = .ok (next.mapOperations (dotChange chosen)) := by
  have hword (index : Nat) : statement.takesWord index = Opcode.isMnemonic statement.name.node := by
    rw [Statement.takesWord, hplain]
  have hadd (operation : Operation) :
      (state.add operation location).mapOperations (dotChange chosen) =
        (state.mapOperations (dotChange chosen)).add (operation.dotted (chosen location))
          location :=
    BuildState.mapOperations_add _ _ _ _
  have hname : (statement.dotted (chosen location)).name = statement.name := rfl
  have hoperands : (statement.dotted (chosen location)).operands =
      dotOperands (fun index => chosen location index && Opcode.isMnemonic statement.name.node)
        statement.operands := by
    simp only [Statement.dotted, hword]
  unfold BuildState.plainStatement at h ⊢
  simp only [hname, BuildState.has_mapOperations] at h ⊢
  cases hmnemonic : Opcode.isMnemonic statement.name.node with
  | true =>
    -- The name of an instruction is neither that of a macro nor one of a flow statement.
    have hcalls : state.macros.has statement.name.node = false := by
      obtain ⟨entry, hentry, hletters⟩ := Opcode.exists_sameLetters hmnemonic
      refine Bool.eq_false_iff.mpr fun hdefined => ?_
      rw [hspares.mnemonics _ hdefined entry hentry] at hletters
      cases hletters
    simp only [hcalls, isKeyword_of_isMnemonic hmnemonic, Bool.false_eq_true, if_false,
      pure_eq_ok] at h ⊢
    subst h
    rw [hoperands, hadd]
    rfl
  | false =>
    have hunchanged : (statement.dotted (chosen location)).operands = statement.operands := by
      rw [hoperands]
      exact dotOperands_none (fun index => by rw [hmnemonic, Bool.and_false]) _
    rw [hunchanged]
    split at h
    case isTrue hcalls =>
      cases h
      rw [if_pos hcalls, BuildState.mapOperations_append]
      rfl
    case isFalse hcalls =>
      rw [if_neg hcalls]
      split at h
      case isTrue hflow =>
        obtain ⟨flow, hread, h⟩ := bind_eq_ok.mp h
        cases h
        rw [if_pos hflow, hread, hadd]
        rfl
      case isFalse hflow =>
        cases h
        rw [if_neg hflow, hadd, Operation.dotted, hmnemonic,
          dotOperands_none fun index => Bool.and_false _]
        rfl

/-- Statements with replaced operands build the operations with replaced operands. -/
theorem dotEdit_builds : (dotEdit chosen).Builds (dotChange chosen) where
  label _ _ := rfl
  mark _ _ := rfl
  span _ _ := rfl
  macros _ _ := rfl
  includes _ _ := rfl
  files location statement hincludes := by
    have hdirective : statement.directive? = some "INCLUDE" := by
      rw [Statement.includes, Bool.and_eq_true, beq_iff_eq] at hincludes
      exact hincludes.1
    refine dotOperands_none (fun index => ?_) _
    rw [Statement.takesWord, hdirective]
    exact Bool.and_false _
  statements := by
    intro search label location statement state next hincludes hspares h
    have hincludes' :
        (dotEdit chosen (location.narrow statement.span) statement).includes = false := hincludes
    rw [buildStatement_eq_ok hincludes] at h
    rw [buildStatement_eq_ok hincludes']
    obtain ⟨hellipsis, ⟨name, hdirective, h⟩ | ⟨hplain, h⟩⟩ := h
    · refine ⟨hellipsis, .inl ⟨name, hdirective, ?_⟩⟩
      have hoperands : (dotEdit chosen (location.narrow statement.span) statement).operands =
          dotOperands (fun index => chosen (location.narrow statement.span) index &&
            directiveTakesWord name index) statement.operands := by
        simp only [dotEdit, Statement.dotted, Statement.takesWord, hdirective]
      rw [hoperands]
      exact directive_dotted chosen h
    · exact ⟨hellipsis, .inr ⟨hplain, plainStatement_dotted chosen hspares hplain h⟩⟩

end Building

/-! ## Labels at the current address -/

/-- Only a name is made a name without a value. -/
theorem eq_of_bindNames_name {choose : Name → Except Fault (Option Expr)} {e : Expr} {name : Name}
    (h : e.bindNames choose = .ok (.name name)) : e = .name name := by
  cases e with
  | name found =>
    simp only [Expr.bindNames, bind_eq_ok] at h
    obtain ⟨value, -, h⟩ := h
    cases value with
    | none => exact Except.ok.inj h
    | some value => cases h
  | binary op left right =>
    simp only [Expr.bindNames, bind_eq_ok, pure_eq_ok] at h
    obtain ⟨_, -, _, -, h⟩ := h
    cases h
  | bound found value | unary op operand | group items long | immediate operand =>
    simp only [Expr.bindNames, bind_eq_ok, pure_eq_ok] at h
    obtain ⟨_, -, h⟩ := h
    cases h
  | number value | text content petscii => cases h

/-- The name of the label that an operand is: a short name that is neither an argument of the
innermost macro call nor an equate. -/
def shortLabel? (environment : Environment) (calls : List MacroCall) (address : Int)
    (operand : Expr) : Option String :=
  match prepareOperand environment calls address operand with
  | .ok (.name ⟨ident, false⟩) => some ident
  | _ => none

/-- An operand that is a label is its name, and stays it when it is prepared. -/
theorem shortLabel?_eq_some {environment : Environment} {calls : List MacroCall} {address : Int}
    {operand : Expr} {ident : String}
    (h : shortLabel? environment calls address operand = some ident) :
    operand = .name ⟨ident, false⟩ ∧
      prepareOperand environment calls address operand = .ok operand := by
  unfold shortLabel? at h
  split at h
  case h_2 => cases h
  case h_1 found hprepared =>
    obtain rfl := Option.some.inj h
    obtain ⟨argued, hargued, hequated⟩ := bind_eq_ok.mp hprepared
    obtain rfl := eq_of_bindNames_name hequated
    obtain rfl : operand = .name ⟨found, false⟩ := by
      cases calls with
      | nil => exact Except.ok.inj hargued
      | cons call outer => exact eq_of_bindNames_name hargued
    exact ⟨rfl, hprepared⟩

/-- The address that the labels of the layout `final` give an operand, if it is a short label. -/
def Layout.labelTarget? (final : Layout) (environment : Environment) (found : Layout)
    (calls : List MacroCall) (operand : Expr) : Option Int := do
  let key ← found.current
  let ident ← shortLabel? environment calls found.address operand
  final.selected? key ident found.address

/-- Whether an operand is a short label that has the current address, in the first bank and where
no macro parameter is named `.`. -/
structure Layout.MeansCurrent (final : Layout) (environment : Environment) (found : Layout)
    (calls : List MacroCall) (operand : Expr) : Prop where
  label : final.labelTarget? environment found calls operand = some found.address
  low : 0 ≤ found.address
  high : found.address < 65536
  unpassed : ∀ call ∈ calls.head?, "." ∉ call.parameters

instance (final : Layout) (environment : Environment) (found : Layout) (calls : List MacroCall)
    (operand : Expr) : Decidable (final.MeansCurrent environment found calls operand) :=
  decidable_of_iff (_ ∧ _ ∧ _ ∧ _)
    ⟨fun ⟨label, low, high, unpassed⟩ => ⟨label, low, high, unpassed⟩,
      fun ⟨label, low, high, unpassed⟩ => ⟨label, low, high, unpassed⟩⟩

/-- A name that a label is found under is not reserved. -/
theorem Layout.NamesConsistent.unreserved {environment : Environment} {layout : Layout}
    {trace : List (Layout × Event)} (h : layout.NamesConsistent environment trace)
    {key ident : String} {address target : Int}
    (hselected : layout.selected? key ident address = some target) : isReserved ident = false := by
  simp only [selected?, Option.bind_eq_bind, Option.bind_eq_some_iff] at hselected
  obtain ⟨segment, hsegment, label, hlabel, -⟩ := hselected
  obtain ⟨owner, howner⟩ :
      ∃ owner, layout.label? owner (splitDirection ident).1 = some label := by
    rcases Option.or_eq_some_iff.mp hlabel with hown | ⟨-, hglobal⟩
    · exact ⟨key, by rw [label?, hsegment, Option.bind_some, hown]⟩
    · simp only [Option.bind_eq_bind, Option.bind_eq_some_iff] at hglobal
      obtain ⟨owner, -, found, hfound, hlabel⟩ := hglobal
      exact ⟨owner, by rw [label?, hfound, Option.bind_some, hlabel]⟩
  have hfree := (h.free owner _ label howner).notReserved
  refine List.any_eq_false.mpr fun word hword hsame => ?_
  cases hlocal : isLocal ident with
  | false =>
    rw [splitDirection, hlocal] at hfree
    exact Bool.eq_false_iff.mp (hfree word hword) hsame
  | true =>
    -- No reserved name begins like a local label.
    have hheads : ∀ word ∈ reservedNames, (word.toList.map Char.toUpper).head? ≠ some '@' := by
      decide
    have hhead : (ident.toList.map Char.toUpper).head? = some '@' := by
      have hfirst : ident.toList.head? = some '@' := by
        simpa [isLocal, beginsWith] using hlocal
      rw [List.head?_map, hfirst]
      rfl
    rw [← eq_of_beq hsame] at hhead
    exact hheads word hword hhead

/-- A label at the current address may be replaced by a `.`. -/
theorem Layout.MeansCurrent.dotsWritten {final : Layout} {environment : Environment}
    {trace : List (Layout × Event)} (hnames : final.NamesConsistent environment trace)
    {found : Layout} {calls : List MacroCall} {operand : Expr}
    (h : final.MeansCurrent environment found calls operand) {word : Prop} (hword : word) :
    final.DotsWritten environment calls found.cursor word operand .dot := by
  have hlabel := h.label
  simp only [labelTarget?, Option.bind_eq_bind, Option.bind_eq_some_iff] at hlabel
  obtain ⟨key, hcurrent, ident, hident, hselected⟩ := hlabel
  obtain ⟨rfl, hprepared⟩ := shortLabel?_eq_some hident
  exact .dot hword ⟨hnames.unreserved hselected, ⟨key, hcurrent, hselected⟩, h.low, h.high⟩
    hprepared h.unpassed

/-! ## Checking a replacement -/

/-- Whether a condition holds of every task that the first walk comes to, as far as a number of
steps shows. -/
def holdsOnWalk (environment : Environment) (condition : Layout → Task → Bool) :
    Nat → Layout → List Task → Bool
  | _, _, [] => true
  | 0, _, _ :: _ => false
  | steps + 1, layout, task :: tasks =>
    condition layout task &&
      match task.advance environment layout with
      | .ok (_, next, more) => holdsOnWalk environment condition steps next (more ++ tasks)
      | .error _ => true

/-- What is found to hold along the walk holds of every task that it comes to. -/
theorem holdsOnWalk_sound {environment : Environment} {condition : Layout → Task → Bool}
    {steps : Nat} {layout found : Layout} {task : Task} {tasks others : List Task}
    (h : holdsOnWalk environment condition steps layout tasks = true)
    (hfound : WalksTo environment layout tasks found (task :: others)) :
    condition found task = true := by
  generalize hrest : task :: others = reached at hfound
  induction hfound generalizing steps with
  | here layout tasks =>
    subst hrest
    cases steps with
    | zero => cases h
    | succ steps => exact (Bool.and_eq_true_iff.mp h).1
  | step advanced _ ih =>
    cases steps with
    | zero => cases h
    | succ steps =>
      obtain ⟨-, hlater⟩ := Bool.and_eq_true_iff.mp h
      simp only [advanced] at hlater
      exact ih hlater hrest

/-- Whether the first operand of an operation may be replaced, if the operation is at a line. -/
def Task.dotsFirst (final : Layout) (environment : Environment) (line : Nat) (found : Layout) :
    Task → Bool
  | .action calls (.operation operation location) =>
    location.line != line || (operation.wordOperand? 0).all fun operand =>
      decide (final.MeansCurrent environment found calls operand)
  | _ => true

/-! ## Assemblies -/

/-- A `.` behaves like a label at the current address. When labels that stand for the current
address are replaced by a `.` in the instructions, `.DW`, `.DL` and `.FILLW` directives of a program
that assembles, in the first bank and wherever the program is expanded, it assembles to the same
segments. Files that the program embeds have to stay as they are. -/
theorem assembles_with_dots {search search' : AssetSearch} {main main' : SourceFile}
    {listing : Bool} {assembly : Assembly}
    (hassembled : assemble search main listing = .ok assembly) (run : AssemblyRun search main)
    {chosen : Location → Nat → Bool} (hedits : Edits (dotEdit chosen) search main search' main')
    (hlabels : ∀ found calls operation location, Visits (run.program.environment search)
        run.program.actions found calls (.operation operation location) →
      ∀ index operand, chosen location index = true →
        operation.wordOperand? index = some operand →
          run.layout.MeansCurrent (run.program.environment search) found calls operand)
    (hfiles : ∀ path, run.program.Embeds search path →
      search'.store.locate search'.directories path =
        search.store.locate search.directories path) :
    ∃ assembly', assemble search' main' listing = .ok assembly' ∧
      assembly'.segments = assembly.segments := by
  obtain ⟨read', program', hread', hbuilt', hbare⟩ :=
    buildProgram_edited (dotEdit_builds chosen) hedits run.read run.built
  obtain ⟨-, trace, -, walk⟩ := layoutProgram_firstWalk run.laidOut
  have hkeys : run.layout.keys.Nodup := (layoutProgram_indexed run.laidOut).distinct
  have hnames := walk.walksThrough.namesConsistent
  have hchanges : (run.program.environment search).Changes (dotChange chosen)
      ((run.program.mapOperations (dotChange chosen)).environment search') := ⟨rfl, rfl⟩
  have halike found calls operation location others
      (hfound : WalksTo (run.program.environment search) Layout.empty
        (bodyTasks [] run.program.actions) found
          (.action calls (.operation operation location) :: others)) :
      LaysOutAlike (dotChange chosen) (run.program.environment search)
        ((run.program.mapOperations (dotChange chosen)).environment search') Layout.Sheds
        run.layout.EmitsLike found calls operation location := by
    refine Layout.DotsOperation.laysOutAlike hkeys hchanges.sameNames
      (Operation.dots_dotted fun index operand hchosen hoperand word hword => ?_)
      fun path hpath => ?_
    · exact (hlabels found calls operation location ⟨others, hfound⟩ index operand hchosen
        hoperand).dotsWritten hnames hword
    · exact hfiles path ⟨found, calls, location, others, hpath ▸ hfound⟩
  obtain ⟨emission', hemit', hsegments⟩ : ∃ emission',
      (run.program.mapOperations (dotChange chosen)).emit search' true = .ok emission' ∧
        emission'.segmentCode = run.emission.segmentCode := by
    refine Program.emit_of_sheds run.emit_eq_ok fun again => ?_
    obtain ⟨rfl, rfl⟩ := walk.unique again
    obtain ⟨trace', last', walk', hlast, htrace⟩ :=
      walk.mapOperations hchanges (fun _ _ h => h.address) (.refl run.layout) halike
        Layout.Sheds.empty
    rw [bodyTasks_mapOperations] at walk'
    exact ⟨trace', last', walk', hlast, htrace⟩
  obtain ⟨emission, hemit, hsame⟩ := Program.emit_bare hbare hemit'
  refine ⟨_, assemble_of_emit listing hread' hbuilt' hemit, ?_⟩
  rw [run.segments_eq hassembled, ← hsegments, ← hsame]

/-- A branch to a local label of a macro that is called twice. -/
theorem assembles_with_dots_macro :
    ∃ main main' : SourceFile,
      main.text = " .segment \"c\",0x8000,9,0\n .c\nm: .macro x\n@l: bra @l-\n .dw x\n" ++
        " .endmacro\n m 1\n m 2\n" ∧
      main'.text = " .segment \"c\",0x8000,9,0\n .c\nm: .macro x\n@l: bra .\n .dw x\n" ++
        " .endmacro\n m 1\n m 2\n" ∧
      ∃ (assembly assembly' : Assembly),
        assemble ⟨.ofTable [], []⟩ main false = .ok assembly ∧
        assemble ⟨.ofTable [], []⟩ main' false = .ok assembly' ∧
        assembly'.segments = assembly.segments := by
  let main : SourceFile := ⟨"m.s", " .segment \"c\",0x8000,9,0\n .c\nm: .macro x\n" ++
    "@l: bra @l-\n .dw x\n .endmacro\n m 1\n m 2\n"⟩
  let main' : SourceFile := ⟨"m.s", " .segment \"c\",0x8000,9,0\n .c\nm: .macro x\n" ++
    "@l: bra .\n .dw x\n .endmacro\n m 1\n m 2\n"⟩
  let chosen (location : Location) (index : Nat) : Bool := location.line == 4 && index == 0
  obtain ⟨run, hrun⟩ : ∃ run : AssemblyRun ⟨.ofTable [], []⟩ main,
      holdsOnWalk (run.program.environment ⟨.ofTable [], []⟩)
        (Task.dotsFirst run.layout (run.program.environment ⟨.ofTable [], []⟩) 4) 40 Layout.empty
        (bodyTasks [] run.program.actions) = true :=
    AssemblyRun.exists_of_any _ (by decide +kernel)
  have hedits : Edits (dotEdit chosen) ⟨.ofTable [], []⟩ main ⟨.ofTable [], []⟩ main' :=
    ⟨rfl, readsEdited_of_eq (by decide +kernel), rfl, fun _ _ h => h, fun _ _ h => by cases h⟩
  obtain ⟨assembly, hassembled⟩ := run.assembles false
  obtain ⟨assembly', hassembled', hsegments⟩ :=
    assembles_with_dots hassembled run hedits (fun found calls operation location hfound index
        operand hchosen hoperand => by
      obtain ⟨others, hfound⟩ := hfound
      have hcondition := holdsOnWalk_sound hrun hfound
      obtain ⟨hline, hindex⟩ := Bool.and_eq_true_iff.mp hchosen
      rw [eq_of_beq hindex] at hoperand
      simpa [Task.dotsFirst, eq_of_beq hline, hoperand] using hcondition) fun _ _ => rfl
  exact ⟨main, main', rfl, rfl, assembly, assembly', hassembled, hassembled', hsegments⟩

/-- Whether the code of a run stands at the label `l`, and another text assembles differently from
it or not at all. -/
def AssemblyRun.differsAtLabel {main : SourceFile} (run : AssemblyRun ⟨.ofTable [], []⟩ main)
    (text : String) : Bool :=
  (run.deposits.all fun deposit => deposit.bytes.isEmpty ||
    run.layout.selected? "C" "l" deposit.address == some deposit.address) &&
  (assemble ⟨.ofTable [], []⟩ ⟨main.name, text⟩ false).toOption.all fun assembly =>
    assembly.segments != run.emission.segmentCode

/-- The code of a text stands at the label `l`, and another text assembles to different segments or
not at all. -/
def DiffersAtLabel (text other : String) : Prop :=
  ∃ (run : AssemblyRun ⟨.ofTable [], []⟩ ⟨"m.s", text⟩) (assembly : Assembly),
    (∀ deposit ∈ run.deposits, deposit.bytes ≠ [] →
      run.layout.selected? "C" "l" deposit.address = some deposit.address) ∧
    assemble ⟨.ofTable [], []⟩ ⟨"m.s", text⟩ false = .ok assembly ∧
    ∀ assembly', assemble ⟨.ofTable [], []⟩ ⟨"m.s", other⟩ false = .ok assembly' →
      assembly'.segments ≠ assembly.segments

/-- What is found of a run holds of the assemblies of both texts. -/
theorem AssemblyRun.differsAtLabel_spec {text other : String}
    (h : (AssemblyRun.find? ⟨.ofTable [], []⟩ ⟨"m.s", text⟩).any (differsAtLabel · other) = true) :
    DiffersAtLabel text other := by
  obtain ⟨run, hrun⟩ := AssemblyRun.exists_of_any _ h
  obtain ⟨hplaced, hdiffers⟩ := Bool.and_eq_true_iff.mp hrun
  obtain ⟨assembly, hassembled⟩ := run.assembles false
  refine ⟨run, assembly, fun deposit hdeposit hbytes => ?_, hassembled,
    fun assembly' hassembled' => ?_⟩
  · have hlabel := List.all_eq_true.mp hplaced deposit hdeposit
    rw [Bool.or_eq_true, List.isEmpty_iff, beq_iff_eq] at hlabel
    exact hlabel.resolve_left hbytes
  · rw [toOption_eq_some.mpr hassembled'] at hdiffers
    rw [run.segments_eq hassembled]
    exact bne_iff_ne.mp hdiffers

/-- A `.` in the place of a label at the current address assembles differently, or not at all, where
the address lies outside the first bank, in the field of a single byte, and in a macro with a
parameter of that name. -/
theorem dot_differs_from_label :
    DiffersAtLabel " .segment \"c\",0x18000,9,0\n .c\nl: .dw l\n"
      " .segment \"c\",0x18000,9,0\n .c\nl: .dw .\n" ∧
    DiffersAtLabel " .segment \"c\",16,9,0\n .c\nl: .db l\n"
      " .segment \"c\",16,9,0\n .c\nl: .db .\n" ∧
    DiffersAtLabel " .segment \"c\",16,9,0\n .c\nl: .fill 1,l\n"
      " .segment \"c\",16,9,0\n .c\nl: .fill 1,.\n" ∧
    DiffersAtLabel " .segment \"c\",16,9,0\n .c\nm: .macro .\nl: .dw l\n .endmacro\n m 5\n"
      " .segment \"c\",16,9,0\n .c\nm: .macro .\nl: .dw .\n .endmacro\n m 5\n" := by
  refine ⟨AssemblyRun.differsAtLabel_spec ?bank, AssemblyRun.differsAtLabel_spec ?byte,
    AssemblyRun.differsAtLabel_spec ?fill, AssemblyRun.differsAtLabel_spec ?parameter⟩
  case bank => decide +kernel
  case byte => decide +kernel
  case fill => decide +kernel
  case parameter => decide +kernel

end Asm65816
