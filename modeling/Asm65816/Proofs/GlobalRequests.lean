import Asm65816.Proofs.MacroScope
import Asm65816.Proofs.NameTables

/-!
# Names that a program makes global

`.GLOBAL` is the one statement that makes a name global, and it refuses local labels. Whatever a
program is built from, none of its actions asks for a local label to be global, be it in a macro, in
a conditional block or in a loop.
-/

namespace Asm65816

/-- An operation that makes no local label global by its name. -/
def Operation.KeepsLocal : Operation → Prop
  | .setGlobal name => isLocal name = false
  | _ => True

/-- Actions that make no local label global by its name. -/
def KeepsLocal (body : List Action) : Prop :=
  ∀ operation location, (Action.operation operation location).Inside body → operation.KeepsLocal

namespace Action.Inside

variable {action found : Action}

theorem of_append {first second : List Action} (h : found.Inside (first ++ second)) :
    found.Inside first ∨ found.Inside second := by
  induction h with
  | here mem => exact (List.mem_append.mp mem).imp .here .here
  | arm outer mem deep ih => exact ih.imp (.arm · mem deep) (.arm · mem deep)
  | loop outer deep ih => exact ih.imp (.loop · deep) (.loop · deep)

/-- What is inside of one action is that action or stands in one of its bodies. -/
theorem of_singleton (h : found.Inside [action]) :
    found = action ∨
      (∃ arms location condition inner armLocation, action = .conditional arms location ∧
        ConditionalArm.mk condition inner armLocation ∈ arms ∧ found.Inside inner) ∨
      ∃ inner location, action = .argumentLoop inner location ∧ found.Inside inner := by
  induction h with
  | here mem => exact .inl (List.mem_singleton.mp mem)
  | @arm found arms location armLocation condition inner outer mem deep ih =>
    rcases ih with rfl | ⟨_, _, _, _, _, rfl, hmem, hinner⟩ | ⟨_, _, rfl, hinner⟩
    · exact .inr (.inl ⟨_, _, _, _, _, rfl, mem, .here deep⟩)
    · exact .inr (.inl ⟨_, _, _, _, _, rfl, hmem, .arm hinner mem deep⟩)
    · exact .inr (.inr ⟨_, _, rfl, .arm hinner mem deep⟩)
  | @loop found inner location outer deep ih =>
    rcases ih with rfl | ⟨_, _, _, _, _, rfl, hmem, hinner⟩ | ⟨_, _, rfl, hinner⟩
    · exact .inr (.inr ⟨_, _, rfl, .here deep⟩)
    · exact .inr (.inl ⟨_, _, _, _, _, rfl, hmem, .loop hinner deep⟩)
    · exact .inr (.inr ⟨_, _, rfl, .loop hinner deep⟩)

end Action.Inside

namespace KeepsLocal

theorem nil : KeepsLocal [] := by
  intro operation location h
  generalize Action.operation operation location = found at h
  induction h with
  | here mem => cases mem
  | arm outer mem deep ih => exact ih
  | loop outer deep ih => exact ih

theorem append {body : List Action} {action : Action} (h : KeepsLocal body)
    (haction : KeepsLocal [action]) : KeepsLocal (body ++ [action]) :=
  fun operation location hinside =>
    hinside.of_append.elim (h operation location) (haction operation location)

theorem operation {operation : Operation} {location : Location} (h : operation.KeepsLocal) :
    KeepsLocal [.operation operation location] := by
  intro found place hinside
  rcases hinside.of_singleton with heq | ⟨_, _, _, _, _, heq, -, -⟩ | ⟨_, _, heq, -⟩
  · cases heq
    exact h
  · cases heq
  · cases heq

theorem callMacro (name : String) (operands : List Expr) (location : Location) :
    KeepsLocal [.callMacro name operands location] := by
  intro found place hinside
  rcases hinside.of_singleton with heq | ⟨_, _, _, _, _, heq, -, -⟩ | ⟨_, _, heq, -⟩
  · cases heq
  · cases heq
  · cases heq

theorem conditional {arms : List ConditionalArm} {location : Location}
    (h : ∀ condition inner armLocation, ConditionalArm.mk condition inner armLocation ∈ arms →
      KeepsLocal inner) : KeepsLocal [.conditional arms location] := by
  intro found place hinside
  rcases hinside.of_singleton with heq | ⟨_, _, _, _, _, heq, hmem, hinner⟩ | ⟨_, _, heq, -⟩
  · cases heq
  · cases heq
    exact h _ _ _ hmem found place hinner
  · cases heq

theorem argumentLoop {inner : List Action} {location : Location} (h : KeepsLocal inner) :
    KeepsLocal [.argumentLoop inner location] := by
  intro found place hinside
  rcases hinside.of_singleton with heq | ⟨_, _, _, _, _, heq, -, -⟩ | ⟨_, _, heq, hinner⟩
  · cases heq
  · cases heq
  · cases heq
    exact h found place hinner

end KeepsLocal

/-- A block that makes no local label global by its name. -/
def Capture.KeepsLocal : Capture → Prop
  | .macroBody _ body _ => Asm65816.KeepsLocal body
  | .conditional arms _ body _ _ =>
    (∀ condition inner location, ConditionalArm.mk condition inner location ∈ arms →
      Asm65816.KeepsLocal inner) ∧ Asm65816.KeepsLocal body
  | .argumentLoop body _ => Asm65816.KeepsLocal body

/-- A state of the builder whose actions make no local label global by its name. -/
structure BuildState.KeepsLocal (state : BuildState) : Prop where
  actions : Asm65816.KeepsLocal state.actions
  captures : ∀ capture ∈ state.captures, capture.KeepsLocal
  macros : ∀ name definition, state.macros.get? name = some definition →
    Asm65816.KeepsLocal definition.body

namespace BuildState.KeepsLocal

variable {state next : BuildState}

theorem withCaptures (h : state.KeepsLocal) {captures : List Capture}
    (hcaptures : ∀ capture ∈ captures, capture.KeepsLocal) :
    ({ state with captures := captures } : BuildState).KeepsLocal :=
  ⟨h.actions, hcaptures, h.macros⟩

theorem inner_outer (h : state.KeepsLocal) {capture : Capture} {rest : List Capture}
    (hcaptures : state.captures = capture :: rest) :
    capture.KeepsLocal ∧ ∀ other ∈ rest, other.KeepsLocal := by
  have hall := h.captures
  rw [hcaptures] at hall
  exact List.forall_mem_cons.mp hall

theorem append (h : state.KeepsLocal) {action : Action}
    (haction : Asm65816.KeepsLocal [action]) : (state.append action).KeepsLocal := by
  unfold BuildState.append
  split
  case h_1 capture rest hcaptures =>
    obtain ⟨hinner, houter⟩ := h.inner_outer hcaptures
    refine h.withCaptures (List.forall_mem_cons.mpr ⟨?_, houter⟩)
    cases capture with
    | macroBody name body location => exact Asm65816.KeepsLocal.append hinner haction
    | argumentLoop body location => exact Asm65816.KeepsLocal.append hinner haction
    | conditional arms condition body armLocation location =>
      exact ⟨hinner.1, hinner.2.append haction⟩
  case h_2 => exact ⟨h.actions.append haction, h.captures, h.macros⟩

theorem add (h : state.KeepsLocal) {operation : Operation} {location : Location}
    (hoperation : operation.KeepsLocal) : (state.add operation location).KeepsLocal :=
  h.append (.operation hoperation)

theorem enter (h : state.KeepsLocal) {capture : Capture} (hcapture : capture.KeepsLocal) :
    (state.enter capture).KeepsLocal :=
  h.withCaptures (List.forall_mem_cons.mpr ⟨hcapture, h.captures⟩)

/-- `.GLOBAL` refuses local labels. -/
theorem declareGlobals (h : state.KeepsLocal) {location : Location} {position : Nat}
    {operands : List Expr}
    (hstep : BuildState.declareGlobals location position operands state = .ok next) :
    next.KeepsLocal := by
  induction operands generalizing position state with
  | nil =>
    cases hstep
    exact h
  | cons operand rest ih =>
    obtain ⟨name, -, -, hlocal, hstep⟩ := declareGlobals_cons.mp hstep
    have hnamed : BuildState.KeepsLocal { state with globals := name.ident :: state.globals } :=
      ⟨h.actions, h.captures, h.macros⟩
    have hkeeps : Operation.KeepsLocal (.setGlobal name.ident) := hlocal
    exact ih (hnamed.add hkeeps) hstep

theorem beginMacro (h : state.KeepsLocal) {label : Option (Spanned String)} {variadic : Bool}
    {operands : List Expr} {location : Location}
    (hstep : state.beginMacro label variadic operands location = .ok next) : next.KeepsLocal := by
  obtain ⟨found, parameters, -, -, -, -, rfl⟩ := beginMacro_eq_ok.mp hstep
  have hmacros : BuildState.KeepsLocal
      { state with macros := state.macros.put found.node ⟨parameters, variadic, []⟩ } := by
    refine ⟨h.actions, h.captures, fun name definition hfound => ?_⟩
    rw [Table.get?_put] at hfound
    split at hfound
    case isTrue =>
      cases hfound
      exact .nil
    case isFalse => exact h.macros name definition hfound
  exact hmacros.enter Asm65816.KeepsLocal.nil

theorem endMacro (h : state.KeepsLocal) {operands : List Expr}
    (hstep : state.endMacro operands = .ok next) : next.KeepsLocal := by
  obtain ⟨-, name, body, opened, rest, hcaptures, rfl⟩ := endMacro_eq_ok.mp hstep
  obtain ⟨hbody, houter⟩ := h.inner_outer hcaptures
  refine ⟨h.actions, houter, fun other definition hfound => ?_⟩
  rw [Table.get?_alter] at hfound
  split at hfound
  case isTrue =>
    obtain ⟨old, -, rfl⟩ := Option.map_eq_some_iff.mp hfound
    exact hbody
  case isFalse => exact h.macros other definition hfound

/-- The finished arms of a block together with the one that is being read. -/
theorem arms {arms : List ConditionalArm} {condition : Option Expr} {body : List Action}
    {armLocation location : Location}
    (h : Capture.KeepsLocal (.conditional arms condition body armLocation location)) :
    ∀ found inner place, ConditionalArm.mk found inner place ∈
      arms ++ [ConditionalArm.mk condition body armLocation] → Asm65816.KeepsLocal inner := by
  intro found inner place hmem
  rcases List.mem_append.mp hmem with harm | hlast
  · exact h.1 found inner place harm
  · cases List.mem_singleton.mp hlast
    exact h.2

theorem nextArm (h : state.KeepsLocal) {condition : Option Expr} {location : Location}
    (hstep : state.nextArm condition location = .ok next) : next.KeepsLocal := by
  obtain ⟨_, current, body, armLocation, opened, rest, hcaptures, rfl⟩ := nextArm_eq_ok.mp hstep
  obtain ⟨hinner, houter⟩ := h.inner_outer hcaptures
  exact h.withCaptures (List.forall_mem_cons.mpr ⟨⟨arms hinner, .nil⟩, houter⟩)

theorem endConditional (h : state.KeepsLocal) (hstep : state.endConditional = .ok next) :
    next.KeepsLocal := by
  obtain ⟨_, condition, body, armLocation, opened, rest, hcaptures, rfl⟩ :=
    endConditional_eq_ok.mp hstep
  obtain ⟨hinner, houter⟩ := h.inner_outer hcaptures
  exact (h.withCaptures houter).append (.conditional (arms hinner))

theorem endLoop (h : state.KeepsLocal) (hstep : state.endLoop = .ok next) : next.KeepsLocal := by
  obtain ⟨body, opened, rest, hcaptures, rfl⟩ := endLoop_eq_ok.mp hstep
  obtain ⟨hinner, houter⟩ := h.inner_outer hcaptures
  exact (h.withCaptures houter).append (.argumentLoop hinner)

/-- Only the effect of `.GLOBAL` makes a name global, and it refuses local labels. -/
theorem of_effect (h : state.KeepsLocal) {effect : Effect} {operands : List Expr}
    {location : Location} (hdraws : effect.Draws operands)
    (hstep : effect.apply state location = .ok next) : next.KeepsLocal := by
  cases effect with
  | add operation =>
    cases hstep
    refine h.add ?_
    cases operation with
    | setGlobal name => exact absurd rfl (hdraws.2 name)
    | _ => trivial
  | call name arguments =>
    cases hstep
    exact h.append (.callMacro name arguments location)
  | declareGlobals operands => exact h.declareGlobals hstep
  | beginMacro label variadic operands => exact h.beginMacro hstep
  | endMacro operands => exact h.endMacro hstep
  | openConditional condition =>
    cases hstep
    exact h.enter ⟨fun _ _ _ hmem => (by cases hmem), .nil⟩
  | nextArm condition => exact h.nextArm hstep
  | endConditional => exact h.endConditional hstep
  | openLoop =>
    cases hstep
    exact h.enter Asm65816.KeepsLocal.nil
  | endLoop => exact h.endLoop hstep

/-- A task of the builder makes no local label global by its name. -/
theorem advance (h : state.KeepsLocal) {search : AssetSearch} {task : BuildTask}
    {more : List BuildTask} (hstep : task.advance search state = .ok (next, more)) :
    next.KeepsLocal := by
  cases task with
  | line line =>
    cases hbody : line.body with
    | equate name value =>
      obtain ⟨hdefined, -⟩ := (advance_equate hbody).mp hstep
      obtain ⟨-, -, -, bound, number, -, -, rfl⟩ := defineEquate_eq_ok.mp hdefined
      exact ⟨h.actions, h.captures, h.macros⟩
    | statements label statements =>
      rw [advance_statements hbody] at hstep
      cases hstep
      obtain hsame | ⟨found, -, hadded⟩ := state.declare_eq line.location label statements
      · rw [hsame]
        exact h
      · have hnamed : BuildState.KeepsLocal { state with labels := found.node :: state.labels } :=
          ⟨h.actions, h.captures, h.macros⟩
        rw [hadded]
        exact hnamed.add trivial
  | statement label location statement =>
    cases hincludes : statement.includes with
    | true =>
      obtain ⟨lines, hopened, -⟩ := (advance_include hincludes).mp hstep
      obtain ⟨path, asset, text, read, -, -, -, -, -, rfl, -⟩ := openInclude_eq_ok.mp hopened
      have hread : BuildState.KeepsLocal { state with
          sources := state.sources ++ [⟨asset.path, text⟩]
          warnings := state.warnings ++ read.warnings } := ⟨h.actions, h.captures, h.macros⟩
      exact hread.add trivial
    | false =>
      obtain ⟨hbuilt, -⟩ := (advance_statement hincludes).mp hstep
      obtain ⟨effect, happly, -, hdraws, -⟩ := buildStatement_fits hincludes hbuilt
      exact h.of_effect hdraws happly

end BuildState.KeepsLocal

/-- No state of the builder makes a local label global by its name. -/
theorem BuildsTo.keepsLocal {search : AssetSearch} {state found : BuildState}
    {tasks left : List BuildTask} (h : BuildsTo search state tasks found left)
    (hstate : state.KeepsLocal) : found.KeepsLocal := by
  induction h with
  | here state tasks => exact hstate
  | step advanced rest ih => exact ih (hstate.advance advanced)

/-- A program that is built makes no local label global by its name. -/
theorem buildProgram_keepsLocal {search : AssetSearch} {main : SourceFile} {lines : List Line}
    {program : Program} (h : buildProgram search main lines = .ok program) :
    KeepsLocal program.actions ∧ ∀ name definition, program.macros.get? name = some definition →
      KeepsLocal definition.body := by
  obtain ⟨state, hbuilds, -, hmacros, hactions⟩ := buildProgram_buildsTo h
  have hinitial : (BuildState.initial [main]).KeepsLocal :=
    ⟨.nil, fun _ hmem => (by cases hmem), fun _ _ hfound => by cases hfound⟩
  have hstate := hbuilds.keepsLocal hinitial
  rw [hactions, hmacros]
  exact ⟨hstate.actions, hstate.macros⟩

end Asm65816
