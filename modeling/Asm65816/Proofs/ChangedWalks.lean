import Asm65816.Proofs.EditedPrograms
import Asm65816.Proofs.Reached

/-!
# Walks through changed operations

The first walk through a program with its operations changed expands the same calls, chooses the
same arms and takes the same rounds. When each changed operation is laid out alike where the walk
comes to it, the whole walks are alike.
-/

namespace Asm65816

/-- What the definitions of a program say to the walks, and the same with the operations changed. -/
structure Environment.Changes (change : OperationChange) (environment other : Environment) :
    Prop where
  macros : other.macros = environment.macros.mapValues (MacroDefinition.mapOperations change)
  equates : other.equates = environment.equates

/-- A task with its operation changed. -/
def Task.mapOperations (change : OperationChange) : Task → Task
  | .action calls found => .action calls (found.mapOperations change)
  | .leave location => .leave location

section Tasks

variable (change : OperationChange)

theorem bodyTasks_mapOperations (calls : List MacroCall) (body : List Action) :
    (bodyTasks calls body).map (Task.mapOperations change) =
      bodyTasks calls (mapBody change body) := by
  rw [bodyTasks, bodyTasks, mapBody_eq, List.map_map, List.map_map]
  rfl

theorem expansion_mapOperations (calls : List MacroCall) (body : List Action)
    (location : Location) :
    (bodyTasks calls body ++ [Task.leave location]).map (Task.mapOperations change) =
      bodyTasks calls (mapBody change body) ++ [.leave location] := by
  rw [List.map_append, bodyTasks_mapOperations]
  rfl

theorem roundTasks_mapOperations (call : MacroCall) (outer : List MacroCall)
    (rounds : List (Expr × Nat)) (body : List Action) :
    (roundTasks call outer rounds body).map (Task.mapOperations change) =
      roundTasks call outer rounds (mapBody change body) := by
  rw [roundTasks, roundTasks, List.map_flatMap]
  simp only [bodyTasks_mapOperations]

end Tasks

section Walking

variable {change : OperationChange} {environment other : Environment}

namespace Environment.Changes

theorem sameNames (h : environment.Changes change other) : environment.SameNames other :=
  ⟨fun name => by rw [h.macros, Table.has_mapValues], h.equates⟩

theorem openCall_eq (h : environment.Changes change other) (calls : List MacroCall)
    (name : String) (operands : List Expr) :
    openCall other calls name operands =
      (openCall environment calls name operands).map fun opened =>
        (opened.1, mapBody change opened.2) := by
  unfold openCall
  rw [h.macros, Table.get?_mapValues]
  cases environment.macros.get? name with
  | none => rfl
  | some definition =>
    simp only [Option.map_some, MacroDefinition.mapOperations]
    split
    · rfl
    · split
      · rfl
      · rw [map_bind]
        rfl

theorem chosenBody_eq (h : environment.Changes change other) (calls : List MacroCall)
    (address : Int) (arms : List ConditionalArm) :
    chosenBody other calls address (mapArms change arms) =
      (chosenBody environment calls address arms).map (mapBody change) := by
  induction arms with
  | nil => rfl
  | cons arm rest ih =>
    obtain ⟨condition, body, location⟩ := arm
    simp only [mapArms, chosenBody, h.sameNames.conditionHolds_eq, map_bind]
    refine bind_congr fun holds => ?_
    cases holds with
    | true => rfl
    | false => exact ih

end Environment.Changes

/-- How a changed operation has to be laid out where the first walk comes to the operation: from
related layouts to related layouts, with events that are alike. -/
def LaysOutAlike (change : OperationChange) (environment other : Environment)
    (related : Layout → Layout → Prop) (alike : Layout → Event → Event → Prop)
    (found : Layout) (calls : List MacroCall) (operation : Operation) (location : Location) :
    Prop :=
  ∀ found' event next, related found found' →
    Task.advance environment found (.action calls (.operation operation location)) =
      .ok (event, next, []) →
    ∃ event' next', Task.advance other found'
        (.action calls (.operation (change location operation) location)) =
          .ok (event', next', []) ∧
      alike found event event' ∧ related next next'

variable {related : Layout → Layout → Prop} {alike : Layout → Event → Event → Prop}
  (hchanges : environment.Changes change other)
  (haddress : ∀ layout layout', related layout layout' → layout'.address = layout.address)
  (hsame : ∀ layout event, alike layout event event)

include hchanges haddress hsame

/-- A task with its operation changed does alike what the task did. -/
theorem Task.advance_mapOperations {task : Task} {layout layout' next : Layout} {event : Event}
    {more : List Task}
    (hoperation : ∀ calls operation location,
      task = .action calls (.operation operation location) →
        LaysOutAlike change environment other related alike layout calls operation location)
    (hlayout : related layout layout')
    (hstep : task.advance environment layout = .ok (event, next, more)) :
    ∃ event' next', (task.mapOperations change).advance other layout' =
        .ok (event', next', more.map (Task.mapOperations change)) ∧
      alike layout event event' ∧ related next next' := by
  cases task with
  | leave location =>
    cases hstep
    exact ⟨_, _, rfl, hsame _ _, hlayout⟩
  | action calls action =>
    cases action with
    | operation operation location =>
      obtain rfl : more = [] := by
        obtain ⟨_, -, hstep⟩ := bind_eq_ok.mp hstep
        obtain ⟨_, -, hstep⟩ := bind_eq_ok.mp hstep
        cases hstep
        rfl
      exact hoperation calls operation location rfl layout' event next hlayout hstep
    | callMacro name operands location =>
      obtain ⟨⟨call, body⟩, hopened, hstep⟩ := bind_eq_ok.mp hstep
      cases hstep
      refine ⟨_, layout', bind_eq_ok.mpr ⟨(call, mapBody change body), ?_, ?_⟩, hsame _ _,
        hlayout⟩
      · rw [failingAt_eq_ok] at hopened ⊢
        rw [hchanges.openCall_eq, hopened]
        rfl
      · rw [expansion_mapOperations]
        rfl
    | conditional arms location =>
      obtain ⟨body, hchosen, hstep⟩ := bind_eq_ok.mp hstep
      cases hstep
      refine ⟨_, layout', bind_eq_ok.mpr ⟨mapBody change body, ?_, ?_⟩, hsame _ _, hlayout⟩
      · rw [hchanges.chosenBody_eq, haddress _ _ hlayout, hchosen]
        rfl
      · rw [expansion_mapOperations]
        rfl
    | argumentLoop body location =>
      cases calls with
      | nil => cases hstep
      | cons call outer =>
        cases hstep
        refine ⟨_, layout', ?_, hsame _ _, hlayout⟩
        rw [List.map_append, roundTasks_mapOperations]
        rfl

/-- The first walk through changed operations goes alike, with related layouts in front of events
that are alike. -/
theorem FirstWalk.mapOperations {layout layout' last : Layout} {tasks : List Task}
    {trace : List (Layout × Event)} (walk : FirstWalk environment layout tasks trace last)
    (hoperations : ∀ found calls operation location others,
      WalksTo environment layout tasks found
          (.action calls (.operation operation location) :: others) →
        LaysOutAlike change environment other related alike found calls operation location)
    (hlayout : related layout layout') :
    ∃ trace' last',
      FirstWalk other layout' (tasks.map (Task.mapOperations change)) trace' last' ∧
        related last last' ∧
        List.Forall₂ (fun entry entry' =>
          related entry.1 entry'.1 ∧ alike entry.1 entry.2 entry'.2) trace trace' := by
  induction walk generalizing layout' with
  | done layout => exact ⟨[], layout', .done _, hlayout, .nil⟩
  | @step layout next last task more tasks event trace advanced _ ih =>
    obtain ⟨event', next', hstep', hevent, hnext⟩ :=
      Task.advance_mapOperations hchanges haddress hsame
        (fun calls operation location htask =>
          hoperations layout calls operation location tasks (htask ▸ .here _ _)) hlayout advanced
    obtain ⟨trace', last', walk', hlast, htrace⟩ :=
      ih (fun found calls operation location others hfound =>
        hoperations found calls operation location others (.step advanced hfound)) hnext
    rw [List.map_append] at walk'
    exact ⟨(layout', event') :: trace', last', .step hstep' walk', hlast,
      .cons ⟨hlayout, hevent⟩ htrace⟩

end Walking

end Asm65816
