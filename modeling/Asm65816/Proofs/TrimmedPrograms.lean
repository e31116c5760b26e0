import Mathlib.Data.List.Forall2
import Asm65816.Proofs.IncludeDepth
import Asm65816.Proofs.StatementEffects

/-!
# What is left of a program

Lines are deleted from the sources of a program, all of them inside arms of conditional blocks that
are dead. What each statement does to what was built so far is the same with and without these
lines, but for the bodies of the dead arms and for the places of everything.
-/

namespace Asm65816

/-- Lines that are deleted, by the file and the number of each. -/
abbrev Deletion := String → Nat → Bool

/-- The lines from one number to another, in every file. -/
def Deletion.between (first last : Nat) : Deletion :=
  fun _ number => decide (first ≤ number ∧ number ≤ last)

/-- Whether a place is in a deleted line or was reached through one. -/
def Location.isDeleted (gone : Deletion) (location : Location) : Bool :=
  gone location.file location.line ||
    location.includedFrom.any fun site => gone site.file site.line

/-! ## What is left of a program -/

mutual

/-- An action and what is left of it: places may differ, and so may the bodies of dead arms. -/
inductive Action.Trims (dead : Location → Prop) : Action → Action → Prop where
  | operation (operation : Operation) (location location' : Location) :
      Action.Trims dead (.operation operation location) (.operation operation location')
  | callMacro (name : String) (operands : List Expr) (location location' : Location) :
      Action.Trims dead (.callMacro name operands location) (.callMacro name operands location')
  | conditional {arms arms' : List ConditionalArm} (location location' : Location)
      (arms_trim : List.Forall₂ (ConditionalArm.Trims dead) arms arms') :
      Action.Trims dead (.conditional arms location) (.conditional arms' location')
  | argumentLoop {body body' : List Action} (location location' : Location)
      (body_trims : List.Forall₂ (Action.Trims dead) body body') :
      Action.Trims dead (.argumentLoop body location) (.argumentLoop body' location')

/-- An arm and what is left of it. -/
inductive ConditionalArm.Trims (dead : Location → Prop) :
    ConditionalArm → ConditionalArm → Prop where
  | live (condition : Option Expr) {body body' : List Action} (location location' : Location)
      (body_trims : List.Forall₂ (Action.Trims dead) body body') :
      ConditionalArm.Trims dead (.mk condition body location) (.mk condition body' location')
  | dead (condition : Option Expr) (body body' : List Action) {location : Location}
      (location' : Location) (never : dead location) :
      ConditionalArm.Trims dead (.mk condition body location) (.mk condition body' location')

end

/-- A body and what is left of it. -/
abbrev BodyTrims (dead : Location → Prop) : List Action → List Action → Prop :=
  List.Forall₂ (Action.Trims dead)

theorem ConditionalArm.Trims.of_body {dead : Location → Prop} {body body' : List Action}
    {location : Location} (h : dead location ∨ BodyTrims dead body body')
    (condition : Option Expr) (location' : Location) :
    ConditionalArm.Trims dead (.mk condition body location) (.mk condition body' location') := by
  rcases h with hdead | hbody
  · exact .dead _ _ _ _ hdead
  · exact .live _ _ _ hbody

/-- A macro and what is left of it. -/
structure MacroDefinition.Trims (dead : Location → Prop) (definition rest : MacroDefinition) :
    Prop where
  parameters : rest.parameters = definition.parameters
  variadic : rest.variadic = definition.variadic
  body : BodyTrims dead definition.body rest.body

/-- The macros of a program and what is left of them, under the same names. -/
abbrev MacrosTrim (dead : Location → Prop) : Table MacroDefinition → Table MacroDefinition → Prop :=
  List.Forall₂ fun entry rest => rest.1 = entry.1 ∧ entry.2.Trims dead rest.2

/-- An open block and what is left of it. -/
inductive Capture.Trims (dead : Location → Prop) : Capture → Capture → Prop where
  | macroBody (name : String) {body body' : List Action} (location location' : Location)
      (body_trims : BodyTrims dead body body') :
      Capture.Trims dead (.macroBody name body location) (.macroBody name body' location')
  | conditional {arms arms' : List ConditionalArm} (condition : Option Expr)
      {body body' : List Action} (armLocation armLocation' location location' : Location)
      (arms_trim : List.Forall₂ (ConditionalArm.Trims dead) arms arms')
      (body_trims : dead armLocation ∨ BodyTrims dead body body') :
      Capture.Trims dead (.conditional arms condition body armLocation location)
        (.conditional arms' condition body' armLocation' location')
  | argumentLoop {body body' : List Action} (location location' : Location)
      (body_trims : BodyTrims dead body body') :
      Capture.Trims dead (.argumentLoop body location) (.argumentLoop body' location')

/-- Where the arm that is being read stands. -/
def Capture.arm? : Capture → Option Location
  | conditional _ _ _ armLocation _ => some armLocation
  | _ => none

/-- The innermost of the blocks that are left is in an arm that is dead. -/
def InDeadArm (gone : Deletion) (dead : Location → Prop) (captures : List Capture) : Prop :=
  ∃ arm ∈ (captures.find? fun capture => !capture.location.isDeleted gone).bind Capture.arm?,
    dead arm

/-- Open blocks and those that are left of them. A block that a deleted line opened stands in a
dead arm and is no macro. -/
inductive StackTrims (gone : Deletion) (dead : Location → Prop) :
    List Capture → List Capture → Prop where
  | nil : StackTrims gone dead [] []
  | kept {capture capture' : Capture} {captures captures' : List Capture}
      (hkept : capture.location.isDeleted gone = false) (trims : capture.Trims dead capture')
      (rest : StackTrims gone dead captures captures') :
      StackTrims gone dead (capture :: captures) (capture' :: captures')
  | deleted {capture : Capture} {captures captures' : List Capture}
      (hdeleted : capture.location.isDeleted gone = true) (hblock : capture.directive ≠ "MACRO")
      (hdead : InDeadArm gone dead captures) (rest : StackTrims gone dead captures captures') :
      StackTrims gone dead (capture :: captures) captures'

/-- What is known after some lines, and after those that are left of them. -/
structure BuildState.Trims (gone : Deletion) (dead : Location → Prop) (state rest : BuildState) :
    Prop where
  actions : BodyTrims dead state.actions rest.actions
  captures : StackTrims gone dead state.captures rest.captures
  macros : MacrosTrim dead state.macros rest.macros
  equates : rest.equates = state.equates
  globals : rest.globals ⊆ state.globals
  labels : rest.labels ⊆ state.labels

section Trimming

variable {gone : Deletion} {dead : Location → Prop}

/-! ## Blocks -/

theorem Capture.location_append (capture : Capture) (action : Action) :
    (capture.append action).location = capture.location := by
  cases capture <;> rfl

theorem Capture.directive_append (capture : Capture) (action : Action) :
    (capture.append action).directive = capture.directive := by
  cases capture <;> rfl

theorem BodyTrims.append {body body' : List Action} {action action' : Action}
    (h : BodyTrims dead body body') (haction : action.Trims dead action') :
    BodyTrims dead (body ++ [action]) (body' ++ [action']) :=
  List.rel_append h (.cons haction .nil)

theorem Capture.Trims.append {capture capture' : Capture} {action action' : Action}
    (h : capture.Trims dead capture') (haction : action.Trims dead action') :
    (capture.append action).Trims dead (capture'.append action') := by
  cases h with
  | macroBody name location location' body_trims =>
    exact .macroBody _ _ _ (body_trims.append haction)
  | conditional condition armLocation armLocation' location location' arms_trim body_trims =>
    exact .conditional _ _ _ _ _ arms_trim
      (body_trims.imp_right fun body_trims => body_trims.append haction)
  | argumentLoop location location' body_trims =>
    exact .argumentLoop _ _ (body_trims.append haction)

theorem InDeadArm.head {capture : Capture} {captures : List Capture}
    (h : InDeadArm gone dead (capture :: captures))
    (hkept : capture.location.isDeleted gone = false) :
    ∃ arms condition body armLocation location,
      capture = .conditional arms condition body armLocation location ∧ dead armLocation := by
  obtain ⟨arm, harm, hdead⟩ := h
  rw [List.find?_cons_of_pos (by simp [hkept])] at harm
  cases capture with
  | conditional arms condition body armLocation location =>
    cases harm
    exact ⟨arms, condition, body, arm, location, rfl, hdead⟩
  | macroBody | argumentLoop => cases harm

theorem InDeadArm.append {capture : Capture} {captures : List Capture}
    (h : InDeadArm gone dead (capture :: captures)) (action : Action) :
    InDeadArm gone dead (capture.append action :: captures) := by
  unfold InDeadArm at h ⊢
  cases hplace : capture.location.isDeleted gone with
  | true =>
    rw [List.find?_cons_of_neg (by simp [hplace])] at h
    rwa [List.find?_cons_of_neg (by simp [Capture.location_append, hplace])]
  | false =>
    rw [List.find?_cons_of_pos (by simp [hplace])] at h
    rw [List.find?_cons_of_pos (by simp [Capture.location_append, hplace])]
    cases capture <;> exact h

theorem InDeadArm.ne_nil {captures : List Capture} (h : InDeadArm gone dead captures) :
    captures ≠ [] := by
  rintro rfl
  obtain ⟨arm, harm, -⟩ := h
  cases harm

namespace StackTrims

variable {captures captures' : List Capture}

theorem eq_nil (h : StackTrims gone dead [] captures') : captures' = [] := by
  cases h
  rfl

/-- What is left of a dead arm may grow. -/
theorem append_left (h : StackTrims gone dead captures captures')
    (hdead : InDeadArm gone dead captures) (action : Action) :
    ∃ capture others, captures' = capture :: others ∧
      StackTrims gone dead captures (capture.append action :: others) := by
  induction h with
  | nil => exact absurd rfl hdead.ne_nil
  | kept hkept trims rest ih =>
    obtain ⟨arms, condition, body, armLocation, location, rfl, harm⟩ := hdead.head hkept
    cases trims with
    | conditional condition armLocation armLocation' location location' arms_trim body_trims =>
      exact ⟨_, _, rfl, .kept hkept (.conditional _ _ _ _ _ arms_trim (.inl harm)) rest⟩
  | deleted hdeleted hblock harm rest ih =>
    obtain ⟨capture, others, rfl, hrest⟩ := ih harm
    exact ⟨capture, others, rfl, .deleted hdeleted hblock harm hrest⟩

/-- A dead arm, or a block in it, may grow. -/
theorem append_deleted {capture : Capture}
    (h : StackTrims gone dead (capture :: captures) captures')
    (hdead : InDeadArm gone dead (capture :: captures)) (action : Action) :
    StackTrims gone dead (capture.append action :: captures) captures' := by
  cases h with
  | kept hkept trims rest =>
    obtain ⟨arms, condition, body, armLocation, location, rfl, harm⟩ := hdead.head hkept
    cases trims with
    | conditional condition armLocation armLocation' location location' arms_trim body_trims =>
      exact .kept hkept (.conditional _ _ _ _ _ arms_trim (.inl harm)) rest
  | deleted hdeleted hblock harm rest =>
    refine .deleted ?_ ?_ harm rest
    · rw [Capture.location_append, hdeleted]
    · rw [Capture.directive_append]
      exact hblock

end StackTrims

/-! ## Macros -/

namespace MacrosTrim

variable {macros macros' : Table MacroDefinition}

theorem get? (h : MacrosTrim dead macros macros') (name : String) :
    (macros.get? name = none ∧ macros'.get? name = none) ∨
      ∃ definition definition', macros.get? name = some definition ∧
        macros'.get? name = some definition' ∧ definition.Trims dead definition' := by
  induction h with
  | nil => exact .inl ⟨rfl, rfl⟩
  | @cons entry entry' rest rest' hentry _ ih =>
    obtain ⟨key, definition⟩ := entry
    obtain ⟨key', definition'⟩ := entry'
    obtain ⟨rfl, htrims⟩ : key' = key ∧ definition.Trims dead definition' := hentry
    unfold Table.get?
    split
    · exact .inr ⟨definition, definition', rfl, rfl, htrims⟩
    · exact ih

theorem has (h : MacrosTrim dead macros macros') (name : String) :
    macros'.has name = macros.has name := by
  unfold Table.has
  rcases h.get? name with ⟨hnone, hnone'⟩ | ⟨definition, definition', hsome, hsome', -⟩
  · rw [hnone, hnone']
  · rw [hsome, hsome']
    rfl

theorem put (h : MacrosTrim dead macros macros') (name : String)
    {definition definition' : MacroDefinition} (htrims : definition.Trims dead definition') :
    MacrosTrim dead (macros.put name definition) (macros'.put name definition') := by
  induction h with
  | nil => exact .cons ⟨rfl, htrims⟩ .nil
  | @cons entry entry' rest rest' hentry hrest ih =>
    obtain ⟨key, old⟩ := entry
    obtain ⟨key', old'⟩ := entry'
    obtain ⟨rfl, hold⟩ : key' = key ∧ old.Trims dead old' := hentry
    unfold Table.put
    split
    · exact .cons ⟨rfl, htrims⟩ hrest
    · exact .cons ⟨rfl, hold⟩ ih

theorem setBody (h : MacrosTrim dead macros macros') (name : String) {body body' : List Action}
    (htrims : BodyTrims dead body body') :
    MacrosTrim dead
      (macros.alter name fun definition => { definition with body := body })
      (macros'.alter name fun definition => { definition with body := body' }) := by
  induction h with
  | nil => exact .nil
  | @cons entry entry' rest rest' hentry hrest ih =>
    obtain ⟨key, old⟩ := entry
    obtain ⟨key', old'⟩ := entry'
    obtain ⟨rfl, hold⟩ : key' = key ∧ old.Trims dead old' := hentry
    unfold Table.alter
    split
    · exact .cons ⟨rfl, hold.parameters, hold.variadic, htrims⟩ hrest
    · exact .cons ⟨rfl, hold⟩ ih

end MacrosTrim

/-! ## Statements that are left -/

namespace BuildState.Trims

variable {state rest next : BuildState} {location location' : Location}

theorem withCaptures (h : state.Trims gone dead rest) {captures captures' : List Capture}
    (hcaptures : StackTrims gone dead captures captures') :
    BuildState.Trims gone dead { state with captures := captures }
      { rest with captures := captures' } :=
  ⟨h.actions, hcaptures, h.macros, h.equates, h.globals, h.labels⟩

theorem append (h : state.Trims gone dead rest) {action action' : Action}
    (haction : action.Trims dead action') :
    (state.append action).Trims gone dead (rest.append action') := by
  obtain ⟨sources, warnings, actions, captures, macros, equates, globals, labels⟩ := state
  obtain ⟨sources', warnings', actions', captures', macros', equates', globals', labels'⟩ := rest
  have hcaptures : StackTrims gone dead captures captures' := h.captures
  cases hcaptures with
  | nil =>
    exact ⟨h.actions.append haction, .nil, h.macros, h.equates, h.globals, h.labels⟩
  | kept hkept trims others =>
    refine h.withCaptures (.kept ?_ (trims.append haction) others)
    rw [Capture.location_append, hkept]
  | deleted hdeleted hblock hdead others =>
    -- What is left goes to the dead arm in which the block stands.
    obtain ⟨capture, outer, rfl, hgrown⟩ := others.append_left hdead action'
    refine h.withCaptures (.deleted ?_ ?_ hdead hgrown)
    · rw [Capture.location_append, hdeleted]
    · rwa [Capture.directive_append]

theorem add (h : state.Trims gone dead rest) (operation : Operation) :
    (state.add operation location).Trims gone dead (rest.add operation location') :=
  h.append (.operation _ _ _)

theorem enter (h : state.Trims gone dead rest) {capture capture' : Capture}
    (hkept : capture.location.isDeleted gone = false) (htrims : capture.Trims dead capture') :
    (state.enter capture).Trims gone dead (rest.enter capture') :=
  h.withCaptures (.kept hkept htrims h.captures)

theorem declareGlobals (h : state.Trims gone dead rest) {position : Nat} {operands : List Expr}
    (hstep : declareGlobals location position operands state = .ok next) :
    ∃ last, declareGlobals location' position operands rest = .ok last ∧
      next.Trims gone dead last := by
  induction operands generalizing position state rest with
  | nil =>
    cases hstep
    exact ⟨rest, rfl, h⟩
  | cons operand others ih =>
    obtain ⟨name, rfl, hnew, hlocal, hstep⟩ := declareGlobals_cons.mp hstep
    have hdeclared : BuildState.Trims gone dead
        { state with globals := name.ident :: state.globals }
        { rest with globals := name.ident :: rest.globals } :=
      ⟨h.actions, h.captures, h.macros, h.equates, List.cons_subset_cons _ h.globals, h.labels⟩
    obtain ⟨last, hlast, htrims⟩ := ih (hdeclared.add _) hstep
    have hnew' : name.ident ∉ rest.globals := fun hmem => hnew (h.globals hmem)
    exact ⟨last, declareGlobals_cons.mpr ⟨name, rfl, hnew', hlocal, hlast⟩, htrims⟩

theorem nameFault?_eq (h : state.Trims gone dead rest) (name : String) :
    nameFault? rest.equates rest.macros false name =
      nameFault? state.equates state.macros false name := by
  simp only [nameFault?, h.equates, h.macros.has]

theorem beginMacro (h : state.Trims gone dead rest)
    (hkept : location.isDeleted gone = false) {label : Option (Spanned String)}
    {variadic : Bool} {operands : List Expr}
    (hstep : state.beginMacro label variadic operands location = .ok next) :
    ∃ last, rest.beginMacro label variadic operands location' = .ok last ∧
      next.Trims gone dead last := by
  obtain ⟨found, parameters, rfl, hparameters, hname, hstack, rfl⟩ := beginMacro_eq_ok.mp hstep
  have hempty : MacroDefinition.Trims dead ⟨parameters, variadic, []⟩
      ⟨parameters, variadic, []⟩ := ⟨rfl, rfl, .nil⟩
  have hdefined : BuildState.Trims gone dead
      { state with macros := state.macros.put found.node ⟨parameters, variadic, []⟩ }
      { rest with macros := rest.macros.put found.node ⟨parameters, variadic, []⟩ } :=
    ⟨h.actions, h.captures, h.macros.put _ hempty, h.equates, h.globals, h.labels⟩
  have hstack' : rest.captures = [] := by
    have hall := h.captures
    rw [hstack] at hall
    exact hall.eq_nil
  have hname' : nameFault? rest.equates rest.macros false found.node = none :=
    (h.nameFault?_eq found.node).trans hname
  exact ⟨_, beginMacro_eq_ok.mpr ⟨found, parameters, rfl, hparameters, hname', hstack', rfl⟩,
    hdefined.enter hkept (.macroBody found.node location location' .nil)⟩

/-- The innermost block is left when the line that opened it is. -/
theorem innermost (h : state.Trims gone dead rest)
    (hhead : ∀ capture ∈ state.captures.head?, capture.location.isDeleted gone = false)
    {capture : Capture} {captures : List Capture} (hstack : state.captures = capture :: captures) :
    capture.location.isDeleted gone = false ∧
      ∃ capture' captures', rest.captures = capture' :: captures' ∧
        capture.Trims dead capture' ∧ StackTrims gone dead captures captures' := by
  have hkept : capture.location.isDeleted gone = false := hhead capture (by rw [hstack]; rfl)
  have hall := h.captures
  rw [hstack] at hall
  generalize rest.captures = left at hall
  cases hall with
  | kept _ trims others => exact ⟨hkept, _, _, rfl, trims, others⟩
  | deleted hdeleted => cases hkept.symm.trans hdeleted

theorem endMacro (h : state.Trims gone dead rest)
    (hhead : ∀ capture ∈ state.captures.head?, capture.location.isDeleted gone = false)
    {operands : List Expr} (hstep : state.endMacro operands = .ok next) :
    ∃ last, rest.endMacro operands = .ok last ∧ next.Trims gone dead last := by
  obtain ⟨hnone, name, body, opened, outer, hstack, rfl⟩ := endMacro_eq_ok.mp hstep
  obtain ⟨-, capture', captures', hrest, htrims, hothers⟩ := h.innermost hhead hstack
  cases htrims with
  | macroBody _ _ location' body_trims =>
    refine ⟨_, endMacro_eq_ok.mpr ⟨hnone, _, _, _, _, hrest, rfl⟩, ?_⟩
    exact ⟨h.actions, hothers, h.macros.setBody name body_trims, h.equates, h.globals, h.labels⟩

theorem nextArm (h : state.Trims gone dead rest)
    (hhead : ∀ capture ∈ state.captures.head?, capture.location.isDeleted gone = false)
    {condition : Option Expr} (hstep : state.nextArm condition location = .ok next) :
    ∃ last, rest.nextArm condition location' = .ok last ∧ next.Trims gone dead last := by
  obtain ⟨arms, current, body, armLocation, opened, outer, hstack, rfl⟩ := nextArm_eq_ok.mp hstep
  obtain ⟨hkept, capture', captures', hrest, htrims, hothers⟩ := h.innermost hhead hstack
  cases htrims with
  | conditional _ _ armLocation' _ opened' arms_trim body_trims =>
    refine ⟨_, nextArm_eq_ok.mpr ⟨_, _, _, _, _, _, hrest, rfl⟩,
      h.withCaptures (.kept hkept ?_ hothers)⟩
    refine .conditional _ _ _ _ _ (List.rel_append arms_trim (.cons ?_ .nil)) (.inr .nil)
    exact .of_body body_trims _ _

theorem endConditional (h : state.Trims gone dead rest)
    (hhead : ∀ capture ∈ state.captures.head?, capture.location.isDeleted gone = false)
    (hstep : state.endConditional = .ok next) :
    ∃ last, rest.endConditional = .ok last ∧ next.Trims gone dead last := by
  obtain ⟨arms, condition, body, armLocation, opened, outer, hstack, rfl⟩ :=
    endConditional_eq_ok.mp hstep
  obtain ⟨-, capture', captures', hrest, htrims, hothers⟩ := h.innermost hhead hstack
  cases htrims with
  | conditional _ _ armLocation' _ opened' arms_trim body_trims =>
    refine ⟨_, endConditional_eq_ok.mpr ⟨_, _, _, _, _, _, hrest, rfl⟩,
      (h.withCaptures hothers).append (.conditional _ _ ?_)⟩
    exact List.rel_append arms_trim (.cons (.of_body body_trims _ _) .nil)

theorem endLoop (h : state.Trims gone dead rest)
    (hhead : ∀ capture ∈ state.captures.head?, capture.location.isDeleted gone = false)
    (hstep : state.endLoop = .ok next) :
    ∃ last, rest.endLoop = .ok last ∧ next.Trims gone dead last := by
  obtain ⟨body, opened, outer, hstack, rfl⟩ := endLoop_eq_ok.mp hstep
  obtain ⟨-, capture', captures', hrest, htrims, hothers⟩ := h.innermost hhead hstack
  cases htrims with
  | argumentLoop _ opened' body_trims =>
    exact ⟨_, endLoop_eq_ok.mpr ⟨_, _, _, hrest, rfl⟩,
      (h.withCaptures hothers).append (.argumentLoop _ _ body_trims)⟩

/-- The effect of a statement that is left. -/
theorem effect (h : state.Trims gone dead rest) (hkept : location.isDeleted gone = false)
    {effect : Effect}
    (hhead : effect.closes = true →
      ∀ capture ∈ state.captures.head?, capture.location.isDeleted gone = false)
    (hstep : effect.apply state location = .ok next) :
    ∃ last, effect.apply rest location' = .ok last ∧ next.Trims gone dead last := by
  cases effect with
  | add operation =>
    cases hstep
    exact ⟨_, rfl, h.add operation⟩
  | call name operands =>
    cases hstep
    exact ⟨_, rfl, h.append (.callMacro _ _ _ _)⟩
  | declareGlobals operands => exact h.declareGlobals hstep
  | beginMacro label variadic operands => exact h.beginMacro hkept hstep
  | endMacro operands => exact h.endMacro (hhead rfl) hstep
  | openConditional condition =>
    cases hstep
    exact ⟨_, rfl, h.enter hkept (.conditional _ _ _ _ _ .nil (.inr .nil))⟩
  | nextArm condition => exact h.nextArm (hhead rfl) hstep
  | endConditional => exact h.endConditional (hhead rfl) hstep
  | openLoop =>
    cases hstep
    exact ⟨_, rfl, h.enter hkept (.argumentLoop _ _ .nil)⟩
  | endLoop => exact h.endLoop (hhead rfl) hstep

/-! ## Statements that are deleted -/

theorem append_deleted (h : state.Trims gone dead rest)
    (hdead : InDeadArm gone dead state.captures) (action : Action) :
    (state.append action).Trims gone dead rest := by
  unfold BuildState.append
  split
  case h_1 capture others hstack =>
    rw [hstack] at hdead
    have hgrown := (hstack ▸ h.captures).append_deleted hdead action
    exact ⟨h.actions, hgrown, h.macros, h.equates, h.globals, h.labels⟩
  case h_2 hstack => exact absurd hstack hdead.ne_nil

theorem enter_deleted (h : state.Trims gone dead rest)
    (hdead : InDeadArm gone dead state.captures) {capture : Capture}
    (hdeleted : capture.location.isDeleted gone = true) (hblock : capture.directive ≠ "MACRO") :
    (state.enter capture).Trims gone dead rest :=
  ⟨h.actions, .deleted hdeleted hblock hdead h.captures, h.macros, h.equates, h.globals, h.labels⟩

theorem inDeadArm_append (hdead : InDeadArm gone dead state.captures) (action : Action) :
    InDeadArm gone dead (state.append action).captures := by
  unfold BuildState.append
  split
  case h_1 capture others hstack =>
    rw [hstack] at hdead
    exact hdead.append action
  case h_2 hstack => exact absurd hstack hdead.ne_nil

theorem declareGlobals_deleted (h : state.Trims gone dead rest)
    (hdead : InDeadArm gone dead state.captures) {position : Nat} {operands : List Expr}
    (hstep : BuildState.declareGlobals location position operands state = .ok next) :
    next.Trims gone dead rest := by
  induction operands generalizing position state with
  | nil =>
    cases hstep
    exact h
  | cons operand others ih =>
    obtain ⟨name, -, -, -, hstep⟩ := declareGlobals_cons.mp hstep
    have hdeclared : BuildState.Trims gone dead
        { state with globals := name.ident :: state.globals } rest :=
      ⟨h.actions, h.captures, h.macros, h.equates,
        fun _ hmem => List.mem_cons_of_mem _ (h.globals hmem), h.labels⟩
    have hinside : InDeadArm gone dead
        { state with globals := name.ident :: state.globals }.captures := hdead
    exact ih (hdeclared.append_deleted hinside _) (inDeadArm_append hinside _) hstep

/-- The innermost block is not left when the line that opened it is deleted. -/
theorem innermost_deleted (h : state.Trims gone dead rest)
    (hhead : ∀ capture ∈ state.captures.head?, capture.location.isDeleted gone = true)
    {capture : Capture} {captures : List Capture} (hstack : state.captures = capture :: captures) :
    capture.location.isDeleted gone = true ∧ capture.directive ≠ "MACRO" ∧
      InDeadArm gone dead captures ∧
      BuildState.Trims gone dead { state with captures := captures } rest := by
  have hdeleted : capture.location.isDeleted gone = true := hhead capture (by rw [hstack]; rfl)
  have hall := h.captures
  rw [hstack] at hall
  generalize hrest : rest.captures = left at hall
  cases hall with
  | kept hkept => cases hkept.symm.trans hdeleted
  | deleted _ hblock hdead others =>
    refine ⟨hdeleted, hblock, hdead, ?_⟩
    exact ⟨h.actions, hrest ▸ others, h.macros, h.equates, h.globals, h.labels⟩

/-- The effect of a statement that is deleted. -/
theorem effect_deleted (h : state.Trims gone dead rest)
    (hdead : InDeadArm gone dead state.captures) (hdeleted : location.isDeleted gone = true)
    {effect : Effect}
    (hhead : effect.closes = true →
      ∀ capture ∈ state.captures.head?, capture.location.isDeleted gone = true)
    (hstep : effect.apply state location = .ok next) : next.Trims gone dead rest := by
  cases effect with
  | add operation =>
    cases hstep
    exact h.append_deleted hdead _
  | call name operands =>
    cases hstep
    exact h.append_deleted hdead _
  | declareGlobals operands => exact h.declareGlobals_deleted hdead hstep
  | beginMacro label variadic operands =>
    -- No macro starts inside a block.
    obtain ⟨found, parameters, -, -, -, hstack, -⟩ := beginMacro_eq_ok.mp hstep
    exact absurd hstack hdead.ne_nil
  | endMacro operands =>
    obtain ⟨-, name, body, opened, outer, hstack, rfl⟩ := endMacro_eq_ok.mp hstep
    obtain ⟨-, hblock, -⟩ := h.innermost_deleted (hhead rfl) hstack
    exact absurd rfl hblock
  | openConditional condition =>
    cases hstep
    exact h.enter_deleted hdead hdeleted (show "IF" ≠ "MACRO" by decide)
  | nextArm condition =>
    obtain ⟨arms, current, body, armLocation, opened, outer, hstack, rfl⟩ := nextArm_eq_ok.mp hstep
    obtain ⟨hopened, hblock, houter, htrims⟩ := h.innermost_deleted (hhead rfl) hstack
    exact htrims.enter_deleted houter hopened hblock
  | endConditional =>
    obtain ⟨arms, current, body, armLocation, opened, outer, hstack, rfl⟩ :=
      endConditional_eq_ok.mp hstep
    obtain ⟨-, -, houter, htrims⟩ := h.innermost_deleted (hhead rfl) hstack
    exact htrims.append_deleted houter _
  | openLoop =>
    cases hstep
    exact h.enter_deleted hdead hdeleted (show "VALOOP" ≠ "MACRO" by decide)
  | endLoop =>
    obtain ⟨body, opened, outer, hstack, rfl⟩ := endLoop_eq_ok.mp hstep
    obtain ⟨-, -, houter, htrims⟩ := h.innermost_deleted (hhead rfl) hstack
    exact htrims.append_deleted houter _

end BuildState.Trims

end Trimming

end Asm65816
