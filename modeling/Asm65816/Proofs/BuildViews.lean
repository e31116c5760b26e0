import Asm65816.Proofs.LayoutPositions
import Asm65816.Proofs.StatementEffects

/-!
# Views of what is built

A view changes the actions, the places and the sources of what is built, alike in the program, in
its macros and in the blocks that are open. The steps of the builder that open and close blocks and
that define names do to the view of a state what they do to the state.
-/

namespace Asm65816

/-- A change of what is built. It goes along with joining bodies, and reaches into blocks. -/
structure BuildView where
  sources : Sources → Sources
  warnings : List Diagnostic → List Diagnostic
  place : Location → Location
  body : List Action → List Action
  arms : List ConditionalArm → List ConditionalArm
  body_nil : body [] = []
  body_append : ∀ first second, body (first ++ second) = body first ++ body second
  body_callMacro : ∀ name operands location,
    body [.callMacro name operands location] = [.callMacro name operands (place location)]
  body_conditional : ∀ inner location,
    body [.conditional inner location] = [.conditional (arms inner) (place location)]
  body_argumentLoop : ∀ inner location,
    body [.argumentLoop inner location] = [.argumentLoop (body inner) (place location)]
  arms_nil : arms [] = []
  arms_append : ∀ finished condition inner location,
    arms (finished ++ [.mk condition inner location]) =
      arms finished ++ [.mk condition (body inner) (place location)]

namespace BuildView

variable (view : BuildView)

def definition (definition : MacroDefinition) : MacroDefinition :=
  { definition with body := view.body definition.body }

def capture : Capture → Capture
  | .macroBody name body location => .macroBody name (view.body body) (view.place location)
  | .conditional arms condition body armLocation location =>
    .conditional (view.arms arms) condition (view.body body) (view.place armLocation)
      (view.place location)
  | .argumentLoop body location => .argumentLoop (view.body body) (view.place location)

/-- The view of what is known after some lines. -/
def state (state : BuildState) : BuildState :=
  { state with
    sources := view.sources state.sources
    warnings := view.warnings state.warnings
    actions := view.body state.actions
    captures := state.captures.map view.capture
    macros := state.macros.mapValues view.definition }

/-- An action that the view makes one action of. -/
theorem state_append (state : BuildState) {action action' : Action}
    (h : view.body [action] = [action']) :
    view.state (state.append action) = (view.state state).append action' := by
  obtain ⟨sources, warnings, actions, captures, macros, equates, globals, labels⟩ := state
  cases captures with
  | nil => simp [BuildState.append, BuildView.state, view.body_append, h]
  | cons innermost rest =>
    cases innermost <;>
      simp [BuildState.append, BuildView.state, Capture.append, capture, view.body_append, h]

variable (state : BuildState)

/-- A name is as free in the view. -/
theorem nameFault?_state (equates : Table Number) (name : String) :
    nameFault? equates (view.state state).macros false name =
      nameFault? equates state.macros false name := by
  have hhas : (view.state state).macros.has name = state.macros.has name :=
    Table.has_mapValues _ _ _
  simp only [nameFault?, hhas]

theorem defineEquate_state (name : String) (value : Expr) :
    (view.state state).defineEquate name value =
      (state.defineEquate name value).map view.state := by
  have hequates : (view.state state).equates = state.equates := rfl
  have hlabels : (view.state state).labels = state.labels := rfl
  simp only [BuildState.defineEquate, hequates, hlabels, nameFault?_state]
  split
  · rfl
  · split
    · rfl
    · split
      · rfl
      · simp only [map_bind]
        refine bind_congr fun bound => ?_
        cases bound.closedValue <;> rfl

/-- Names become global in the view when the view keeps the requests for it. -/
theorem declareGlobals_state (location : Location)
    (hglobal : ∀ name, view.body [.operation (.setGlobal name) location] =
      [.operation (.setGlobal name) (view.place location)])
    (position : Nat) (operands : List Expr) :
    BuildState.declareGlobals (view.place location) position operands (view.state state) =
      (BuildState.declareGlobals location position operands state).map view.state := by
  induction operands generalizing state position with
  | nil => rfl
  | cons operand others ih =>
    cases operand with
    | name name =>
      have hadded : view.state (BuildState.add
          { state with globals := name.ident :: state.globals } (.setGlobal name.ident) location) =
            BuildState.add { view.state state with globals := name.ident :: state.globals }
              (.setGlobal name.ident) (view.place location) :=
        view.state_append _ (hglobal name.ident)
      have hglobals : (view.state state).globals = state.globals := rfl
      simp only [BuildState.declareGlobals, hglobals, ← hadded, ih]
      split
      · rfl
      · split <;> rfl
    | _ => rfl

theorem beginMacro_state (label : Option (Spanned String)) (variadic : Bool)
    (operands : List Expr) (location : Location) :
    (view.state state).beginMacro label variadic operands (view.place location) =
      (state.beginMacro label variadic operands location).map view.state := by
  cases label with
  | none => rfl
  | some label =>
    have hequates : (view.state state).equates = state.equates := rfl
    have hopen : (view.state state).captures.isEmpty = state.captures.isEmpty := List.isEmpty_map
    simp only [BuildState.beginMacro, hequates, nameFault?_state, hopen, map_bind]
    refine bind_congr fun parameters => ?_
    cases nameFault? state.equates state.macros false label.node with
    | some fault => rfl
    | none =>
      dsimp only
      split
      · rfl
      · refine congrArg Except.ok ?_
        simp [BuildView.state, BuildState.enter, Table.mapValues_put, definition, capture,
          view.body_nil]

theorem endMacro_state (operands : List Expr) :
    (view.state state).endMacro operands = (state.endMacro operands).map view.state := by
  obtain ⟨sources, warnings, actions, captures, macros, equates, globals, labels⟩ := state
  unfold BuildState.endMacro
  split
  · rfl
  · cases captures with
    | nil => rfl
    | cons innermost rest =>
      cases innermost with
      | macroBody name body location =>
        have hmacros : (macros.alter name fun definition =>
              { definition with body := body }).mapValues view.definition =
            (macros.mapValues view.definition).alter name fun definition =>
              { definition with body := view.body body } := by
          refine Table.mapValues_alter macros ?_ name
          exact fun _ => rfl
        simp only [BuildView.state, capture, List.map_cons, Except.map, hmacros]
      | conditional | argumentLoop => rfl

theorem nextArm_state (condition : Option Expr) (location : Location) :
    (view.state state).nextArm condition (view.place location) =
      (state.nextArm condition location).map view.state := by
  obtain ⟨sources, warnings, actions, captures, macros, equates, globals, labels⟩ := state
  cases captures with
  | nil => rfl
  | cons innermost rest =>
    cases innermost with
    | conditional arms current body armLocation opened =>
      cases current with
      | none => rfl
      | some current =>
        simp [BuildState.nextArm, BuildView.state, capture, view.arms_append, view.body_nil,
          Except.map]
    | macroBody | argumentLoop => rfl

theorem endConditional_state :
    (view.state state).endConditional = state.endConditional.map view.state := by
  obtain ⟨sources, warnings, actions, captures, macros, equates, globals, labels⟩ := state
  cases captures with
  | nil => rfl
  | cons innermost rest =>
    cases innermost with
    | conditional arms condition body armLocation opened =>
      refine congrArg Except.ok ?_
      rw [view.state_append _ (view.body_conditional _ _), view.arms_append]
      rfl
    | macroBody | argumentLoop => rfl

theorem endLoop_state : (view.state state).endLoop = state.endLoop.map view.state := by
  obtain ⟨sources, warnings, actions, captures, macros, equates, globals, labels⟩ := state
  cases captures with
  | nil => rfl
  | cons innermost rest =>
    cases innermost with
    | argumentLoop body opened =>
      refine congrArg Except.ok ?_
      rw [view.state_append _ (view.body_argumentLoop _ _)]
      rfl
    | macroBody | conditional => rfl

/-- A statement has the same effect on the view when the view keeps the operations that it adds. -/
theorem effect_state (location : Location) (effect : Effect)
    (hkept : ∀ operation, (effect = .add operation ∨ ∃ name, operation = .setGlobal name) →
      view.body [.operation operation location] = [.operation operation (view.place location)]) :
    effect.apply (view.state state) (view.place location) =
      (effect.apply state location).map view.state := by
  cases effect with
  | add operation =>
    exact congrArg Except.ok (view.state_append state (hkept operation (.inl rfl))).symm
  | call name operands =>
    exact congrArg Except.ok (view.state_append state (view.body_callMacro _ _ _)).symm
  | declareGlobals operands =>
    exact view.declareGlobals_state state location (fun name => hkept _ (.inr ⟨name, rfl⟩)) 1
      operands
  | beginMacro label variadic operands =>
    exact view.beginMacro_state state label variadic operands location
  | endMacro operands => exact view.endMacro_state state operands
  | openConditional condition =>
    simp [Effect.apply, BuildState.enter, BuildView.state, capture, view.arms_nil, view.body_nil,
      Except.map]
  | nextArm condition => exact view.nextArm_state state condition location
  | endConditional => exact view.endConditional_state state
  | openLoop =>
    simp [Effect.apply, BuildState.enter, BuildView.state, capture, view.body_nil, Except.map]
  | endLoop => exact view.endLoop_state state

end BuildView

end Asm65816
