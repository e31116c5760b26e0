import Asm65816.Proofs.ArmBodies
import Asm65816.Proofs.LayoutPositions
import Asm65816.Proofs.WalkFaults

/-!
# Arms that are never selected

The first walk through a program selects at most one arm of a conditional block each time it comes
to it. Lines of arms that are selected nowhere can be deleted: what is left of the program is laid
out at the same addresses and assembles to the same segments. Equates are the exception, as they
hold from the line that defines them on, whatever arm it stands in.
-/

namespace Asm65816

/-! ## Selection -/

/-- Where the first arm whose condition holds stands, if there is one. -/
def chosenArm? (environment : Environment) (calls : List MacroCall) (address : Int) :
    List ConditionalArm → Option Location
  | [] => none
  | .mk condition _ location :: rest =>
    match conditionHolds environment calls address condition with
    | .ok true => some location
    | .ok false => chosenArm? environment calls address rest
    | .error _ => none

/-- The first walk comes to an action inside the given macro calls. -/
def Visits (environment : Environment) (actions : List Action) (found : Layout)
    (calls : List MacroCall) (action : Action) : Prop :=
  ∃ others, WalksTo environment Layout.empty (bodyTasks [] actions) found
    (.action calls action :: others)

/-- The arm at a location is selected in some expansion of its block. -/
def Program.Selects (program : Program) (search : AssetSearch) (arm : Location) : Prop :=
  ∃ found calls arms location,
    Visits (program.environment search) program.actions found calls (.conditional arms location) ∧
      chosenArm? (program.environment search) calls found.address arms = some arm

/-- A file of the given path is put into the program as it is. -/
def Program.Embeds (program : Program) (search : AssetSearch) (path : String) : Prop :=
  ∃ found calls location, Visits (program.environment search) program.actions found calls
    (.operation (.includeBinary path) location)

/-! ## Environments -/

/-- What the definitions of a program say to the walks, and what is left of it. -/
structure Environment.Trims (dead : Location → Prop) (environment rest : Environment) : Prop where
  macros : MacrosTrim dead environment.macros rest.macros
  equates : rest.equates = environment.equates

section Trimming

variable {dead : Location → Prop} {environment rest : Environment}

namespace Environment.Trims

theorem sameNames (h : environment.Trims dead rest) : environment.SameNames rest :=
  ⟨h.macros.has, h.equates⟩

/-- What is left of a chosen arm is chosen, unless the arm is dead. -/
theorem chosenBody (h : environment.Trims dead rest) {calls : List MacroCall} {address : Int}
    {arms arms' : List ConditionalArm} {body : List Action}
    (harms : List.Forall₂ (ConditionalArm.Trims dead) arms arms')
    (hlive : ∀ arm ∈ chosenArm? environment calls address arms, ¬dead arm)
    (hchosen : chosenBody environment calls address arms = .ok body) :
    ∃ body', chosenBody rest calls address arms' = .ok body' ∧ BodyTrims dead body body' := by
  induction harms with
  | nil =>
    cases hchosen
    exact ⟨[], rfl, .nil⟩
  | @cons arm arm' others others' harm _ ih =>
    obtain ⟨condition, found, location⟩ := arm
    obtain ⟨condition', found', location'⟩ := arm'
    obtain rfl : condition' = condition := by cases harm <;> rfl
    obtain ⟨holds, hholds, hchosen⟩ := bind_eq_ok.mp hchosen
    have hcondition := failingAt_eq_ok.mp hholds
    have hholds' : failingAt location' (conditionHolds rest calls address condition') =
        .ok holds := failingAt_eq_ok.mpr ((h.sameNames.conditionHolds_eq _ _ _).trans hcondition)
    cases holds with
    | true =>
      cases hchosen
      refine ⟨found', bind_eq_ok.mpr ⟨true, hholds', rfl⟩, ?_⟩
      cases harm with
      | live _ _ _ body_trims => exact body_trims
      | dead _ _ _ _ never =>
        refine absurd never (hlive location ?_)
        simp only [chosenArm?, hcondition, Option.mem_some]
    | false =>
      have hothers (arm : Location) (harm : arm ∈ chosenArm? environment calls address others) :
          ¬dead arm := by
        refine hlive arm ?_
        simpa only [chosenArm?, hcondition] using harm
      obtain ⟨body', hbody', htrims⟩ := ih hothers hchosen
      exact ⟨body', bind_eq_ok.mpr ⟨false, hholds', hbody'⟩, htrims⟩

/-- A call of a macro opens what is left of its body. -/
theorem openCall (h : environment.Trims dead rest) {calls : List MacroCall} {name : String}
    {operands : List Expr} {call : MacroCall} {body : List Action}
    (hopen : openCall environment calls name operands = .ok (call, body)) :
    ∃ body', openCall rest calls name operands = .ok (call, body') ∧ BodyTrims dead body body' := by
  unfold Asm65816.openCall at hopen ⊢
  rcases h.macros.get? name with ⟨hnone, -⟩ | ⟨definition, definition', hsome, hsome', htrims⟩
  · simp only [hnone, reduceCtorEq] at hopen
  · simp only [hsome, refuse_eq_ok, bind_eq_ok, pure_eq_ok, Prod.mk.injEq] at hopen
    obtain ⟨hcount, hfresh, arguments, harguments, rfl, rfl⟩ := hopen
    refine ⟨definition'.body, ?_, htrims.body⟩
    simp only [hsome', htrims.parameters, htrims.variadic, refuse_eq_ok, bind_eq_ok, pure_eq_ok]
    exact ⟨hcount, hfresh, arguments, harguments, rfl⟩

end Environment.Trims

/-! ## The first walk -/

/-- A task and what is left of it, inside the same macro calls. -/
inductive Task.Trims (dead : Location → Prop) : Task → Task → Prop where
  | action (calls : List MacroCall) {action action' : Action}
      (trims : action.Trims dead action') :
      Task.Trims dead (.action calls action) (.action calls action')
  | leave (location location' : Location) : Task.Trims dead (.leave location) (.leave location')

theorem BodyTrims.tasks {body body' : List Action} (h : BodyTrims dead body body')
    (calls : List MacroCall) :
    List.Forall₂ (Task.Trims dead) (bodyTasks calls body) (bodyTasks calls body') :=
  List.rel_map (fun _ _ htrims => .action calls htrims) h

theorem BodyTrims.expansion {body body' : List Action} (h : BodyTrims dead body body')
    (calls : List MacroCall) (location location' : Location) :
    List.Forall₂ (Task.Trims dead) (bodyTasks calls body ++ [.leave location])
      (bodyTasks calls body' ++ [.leave location']) :=
  List.rel_append (h.tasks calls) (.cons (.leave _ _) .nil)

theorem BodyTrims.rounds {body body' : List Action} (h : BodyTrims dead body body')
    (call : MacroCall) (outer : List MacroCall) (rounds : List (Expr × Nat)) :
    List.Forall₂ (Task.Trims dead) (roundTasks call outer rounds body)
      (roundTasks call outer rounds body') := by
  induction rounds with
  | nil => exact .nil
  | cons round others ih => exact List.rel_append (h.tasks _) ih

/-- What the first walk does from a layout on does not depend on dead arms. -/
structure SparesDead (dead : Location → Prop) (environment rest : Environment) (layout : Layout)
    (tasks : List Task) : Prop where
  /-- No dead arm is chosen. -/
  live : ∀ found calls arms location others,
    WalksTo environment layout tasks found (.action calls (.conditional arms location) :: others) →
      ∀ arm ∈ chosenArm? environment calls found.address arms, ¬dead arm
  /-- Files that are put in as they are stay the same. -/
  files : ∀ found calls path location others,
    WalksTo environment layout tasks found
      (.action calls (.operation (.includeBinary path) location) :: others) →
        environment.SameFile rest path

/-- What is left of a task does what the task did. -/
theorem Environment.Trims.advance (h : environment.Trims dead rest) {task task' : Task}
    {tasks more : List Task} {layout layout' next : Layout} {event : Event}
    (hspares : SparesDead dead environment rest layout (task :: tasks))
    (htask : task.Trims dead task') (hlayout : layout'.unplaced = layout.unplaced)
    (hstep : task.advance environment layout = .ok (event, next, more)) :
    ∃ event' next' more', task'.advance rest layout' = .ok (event', next', more') ∧
      event'.unplaced = event.unplaced ∧ next'.unplaced = next.unplaced ∧
      List.Forall₂ (Task.Trims dead) more more' := by
  cases htask with
  | leave location location' =>
    cases hstep
    exact ⟨_, layout', [], rfl, rfl, hlayout, .nil⟩
  | @action calls action action' trims =>
    cases trims with
    | operation operation location location' =>
      have hfile (path : String) (hpath : operation = .includeBinary path) :
          environment.SameFile rest path :=
        hspares.files layout calls path location tasks (hpath ▸ .here _ _)
      obtain ⟨event', next', hstep', rfl, hevent, hnext⟩ :=
        h.sameNames.advance_operation location location' hfile hlayout hstep
      exact ⟨event', next', [], hstep', hevent, hnext, .nil⟩
    | callMacro name operands location location' =>
      obtain ⟨⟨call, body⟩, hopened, hstep⟩ := bind_eq_ok.mp hstep
      cases hstep
      obtain ⟨body', hopened', htrims⟩ := h.openCall (failingAt_eq_ok.mp hopened)
      exact ⟨_, layout', _, bind_eq_ok.mpr ⟨_, failingAt_eq_ok.mpr hopened', rfl⟩, rfl, hlayout,
        htrims.expansion _ _ _⟩
    | conditional location location' arms_trim =>
      obtain ⟨body, hchosen, hstep⟩ := bind_eq_ok.mp hstep
      cases hstep
      have hlive := hspares.live layout calls _ location tasks (.here _ _)
      have haddress : layout'.address = layout.address := by
        rw [← Layout.unplaced_address, hlayout, Layout.unplaced_address]
      obtain ⟨body', hchosen', htrims⟩ := h.chosenBody arms_trim hlive hchosen
      rw [← haddress] at hchosen'
      exact ⟨_, layout', _, bind_eq_ok.mpr ⟨_, hchosen', rfl⟩, rfl, hlayout,
        htrims.expansion _ _ _⟩
    | argumentLoop location location' body_trims =>
      cases calls with
      | nil => cases hstep
      | cons call outer =>
        cases hstep
        exact ⟨_, layout', _, rfl, rfl, hlayout,
          List.rel_append (BodyTrims.rounds body_trims _ _ _) (.cons (.leave _ _) .nil)⟩

theorem SparesDead.advance {task : Task} {tasks more : List Task} {layout next : Layout}
    {event : Event} (h : SparesDead dead environment rest layout (task :: tasks))
    (hstep : task.advance environment layout = .ok (event, next, more)) :
    SparesDead dead environment rest next (more ++ tasks) where
  live found calls arms location others hfound :=
    h.live found calls arms location others (.step hstep hfound)
  files found calls path location others hfound :=
    h.files found calls path location others (.step hstep hfound)

/-- The first walk through what is left of a program comes across the same events. -/
theorem Environment.Trims.firstWalk (h : environment.Trims dead rest) {layout layout' last : Layout}
    {tasks tasks' : List Task} {trace : List (Layout × Event)}
    (walk : FirstWalk environment layout tasks trace last)
    (hspares : SparesDead dead environment rest layout tasks)
    (htasks : List.Forall₂ (Task.Trims dead) tasks tasks')
    (hlayout : layout'.unplaced = layout.unplaced) :
    ∃ trace' last', FirstWalk rest layout' tasks' trace' last' ∧
      last'.unplaced = last.unplaced ∧
      (trace'.map Prod.snd).map Event.unplaced = (trace.map Prod.snd).map Event.unplaced := by
  induction walk generalizing layout' tasks' with
  | done layout =>
    cases htasks
    exact ⟨[], layout', .done _, hlayout, rfl⟩
  | step advanced _ ih =>
    cases htasks with
    | cons htask hothers =>
      obtain ⟨event', next', more', hstep', hevent, hnext, hmore⟩ :=
        h.advance hspares htask hlayout advanced
      obtain ⟨trace', last', walk', hlast, htrace⟩ :=
        ih (hspares.advance advanced) (List.rel_append hmore hothers) hnext
      refine ⟨(layout', event') :: trace', last', .step hstep' walk', hlast, ?_⟩
      simp only [List.map_cons, hevent, htrace]

end Trimming

/-! ## Checking a deletion -/

/-- Whether a condition holds of every task that the builder comes to, as far as a number of steps
shows. -/
def holdsAlong (search : AssetSearch) (condition : BuildState → BuildTask → Bool) :
    Nat → BuildState → List BuildTask → Bool
  | _, _, [] => true
  | 0, _, _ :: _ => false
  | steps + 1, state, task :: tasks =>
    condition state task &&
      match task.advance search state with
      | .ok (next, more) => holdsAlong search condition steps next (more ++ tasks)
      | .error _ => true

/-- The arm that a task of the first walk selects, if it does. -/
def Task.selectedArm? (environment : Environment) (layout : Layout) : Task → Option Location
  | .action calls (.conditional arms _) => chosenArm? environment calls layout.address arms
  | _ => none

/-- The arms that the first walk selects, if a number of steps is enough for it. -/
def selectedArms? (environment : Environment) : Nat → Layout → List Task → Option (List Location)
  | _, _, [] => some []
  | 0, _, _ :: _ => none
  | steps + 1, layout, task :: tasks =>
    match task.advance environment layout with
    | .ok (_, next, more) =>
      (selectedArms? environment steps next (more ++ tasks)).map fun arms =>
        (task.selectedArm? environment layout).toList ++ arms
    | .error _ => some (task.selectedArm? environment layout).toList

theorem holdsAlong_sound {search : AssetSearch} {condition : BuildState → BuildTask → Bool}
    {steps : Nat} {state found : BuildState} {task : BuildTask} {tasks left : List BuildTask}
    (h : holdsAlong search condition steps state tasks = true)
    (hfound : BuildsTo search state tasks found (task :: left)) : condition found task = true := by
  generalize hrest : task :: left = reached at hfound
  induction hfound generalizing steps with
  | here state tasks =>
    subst hrest
    cases steps with
    | zero => cases h
    | succ steps => exact (Bool.and_eq_true_iff.mp h).1
  | step advanced _ ih =>
    cases steps with
    | zero => cases h
    | succ steps =>
      obtain ⟨-, hlater⟩ := Bool.and_eq_true_iff.mp h
      simp only [advanced] at hlater
      exact ih hlater hrest

theorem mem_selectedArms {environment : Environment} {steps : Nat} {layout found : Layout}
    {task : Task} {tasks others : List Task} {arms : List Location} {arm : Location}
    (h : selectedArms? environment steps layout tasks = some arms)
    (hfound : WalksTo environment layout tasks found (task :: others))
    (harm : task.selectedArm? environment found = some arm) : arm ∈ arms := by
  generalize hrest : task :: others = reached at hfound
  induction hfound generalizing steps arms with
  | here layout tasks =>
    subst hrest
    cases steps with
    | zero => cases h
    | succ steps =>
      unfold selectedArms? at h
      split at h
      case h_1 =>
        obtain ⟨later, -, rfl⟩ := Option.map_eq_some_iff.mp h
        exact List.mem_append_left _ (by simp [harm])
      case h_2 =>
        cases h
        simp [harm]
  | step advanced _ ih =>
    cases steps with
    | zero => cases h
    | succ steps =>
      simp only [selectedArms?, advanced] at h
      obtain ⟨later, hlater, rfl⟩ := Option.map_eq_some_iff.mp h
      exact List.mem_append_right _ (ih hlater harm hrest)

/-- Whether none of the arms is selected in a run, and a condition holds of every task of the
builder. -/
def AssemblyRun.passes {search : AssetSearch} {main : SourceFile} (steps : Nat)
    (arms : Location → Bool) (condition : BuildState → BuildTask → Bool)
    (run : AssemblyRun search main) : Bool :=
  ((selectedArms? (run.program.environment search) steps Layout.empty
    (bodyTasks [] run.program.actions)).any fun selected => !selected.any arms) &&
      holdsAlong search condition steps (.initial [main]) (lineTasks run.source.lines)

theorem AssemblyRun.of_passes {search : AssetSearch} {main : SourceFile} {steps : Nat}
    {arms : Location → Bool} {condition : BuildState → BuildTask → Bool}
    {run : AssemblyRun search main} (h : run.passes steps arms condition = true) :
    (∀ arm, arms arm = true → ¬run.program.Selects search arm) ∧
      ∀ found task left,
        BuildsTo search (.initial [main]) (lineTasks run.source.lines) found (task :: left) →
          condition found task = true := by
  obtain ⟨hselected, hholds⟩ := Bool.and_eq_true_iff.mp h
  obtain ⟨selected, hlist, hnone⟩ := (Option.any_eq_true _ _).mp hselected
  refine ⟨?_, fun found task left => holdsAlong_sound hholds⟩
  rintro arm harm ⟨found, calls, choices, location, ⟨others, hfound⟩, hchosen⟩
  have hany : selected.any arms = true :=
    List.any_eq_true.mpr ⟨arm, mem_selectedArms hlist hfound hchosen, harm⟩
  rw [hany] at hnone
  cases hnone

/-! ## Assemblies -/

/-- What is left of a program emits the same segments, when no dead arm is selected. -/
theorem Program.Trims.emit {dead : Location → Prop} {program rest : Program}
    (h : program.Trims dead rest) {search search' : AssetSearch} {emission : Emission}
    (hlive : ∀ arm, program.Selects search arm → ¬dead arm)
    (hfiles : ∀ path, program.Embeds search path →
      search'.store.locate search'.directories path = search.store.locate search.directories path)
    (hemit : program.emit search true = .ok emission) :
    ∃ emission', rest.emit search' true = .ok emission' ∧
      emission'.segmentCode = emission.segmentCode := by
  have htrims : (program.environment search).Trims dead (rest.environment search') :=
    ⟨h.macros, h.equates⟩
  have hspares : SparesDead dead (program.environment search) (rest.environment search')
      Layout.empty (bodyTasks [] program.actions) := by
    constructor
    · intro found calls arms location others hfound arm hchoice
      exact hlive arm ⟨found, calls, arms, location, ⟨others, hfound⟩, hchoice⟩
    · intro found calls path location others hfound
      exact hfiles path ⟨found, calls, location, others, hfound⟩
  refine Program.emit_of_firstWalk hemit fun walk => ?_
  obtain ⟨trace', last', walk', hlast, hevents⟩ :=
    htrims.firstWalk walk hspares (h.actions.tasks []) rfl
  exact ⟨trace', last', walk', hlast, filterMap_bare?_of_unplaced hevents⟩

/-- Lines of arms that are selected nowhere can be deleted with whole blocks. -/
theorem segments_eq_of_deletesDead {gone : Deletion} {search search' : AssetSearch}
    {main main' : SourceFile} {listing : Bool} {assembly : Assembly}
    (hassembled : assemble search main listing = .ok assembly) {read : SourceLines}
    (hread : readSource 0 main.name main.text [] = .ok read) {program : Program}
    (hbuilt : buildProgram search main read.lines = .ok program)
    (hleaves : Leaves gone search main search' main')
    (hdeletes : DeletesDead gone (fun arm => ¬program.Selects search arm) search
      (.initial [main]) (lineTasks read.lines))
    (hfiles : ∀ path, program.Embeds search path →
      search'.store.locate search'.directories path =
        search.store.locate search.directories path) :
    ∃ assembly', assemble search' main' listing = .ok assembly' ∧
      assembly'.segments = assembly.segments := by
  obtain ⟨found, built, emission, hfound, hprogram, hemit, rfl⟩ := assemble_eq_ok.mp hassembled
  cases hread.symm.trans hfound
  cases hbuilt.symm.trans hprogram
  obtain ⟨read', program', hread', hbuilt', htrims⟩ :=
    buildProgram_trims hleaves hread hbuilt hdeletes
  obtain ⟨emission', hemit', hsegments⟩ :=
    htrims.emit (fun arm hselects hdead => hdead hselects) hfiles hemit
  exact ⟨_, assemble_of_emit listing hread' hbuilt' hemit', hsegments⟩

/-- When exactly the lines in the bodies of arms that are selected nowhere are deleted from the
sources of a program, and none of them defines an equate, what is left assembles to the same
segments. Files that the program embeds have to stay as they are. -/
theorem segments_eq_without_unselected {gone : Deletion} {search search' : AssetSearch}
    {main main' : SourceFile} {listing : Bool} {assembly : Assembly}
    (hassembled : assemble search main listing = .ok assembly) {read : SourceLines}
    (hread : readSource 0 main.name main.text [] = .ok read) {program : Program}
    (hbuilt : buildProgram search main read.lines = .ok program) {arms : Location → Prop}
    (hunselected : ∀ arm, arms arm → ¬program.Selects search arm)
    (hleaves : Leaves gone search main search' main')
    (hbodies : DeletesBodies gone arms search (.initial [main]) (lineTasks read.lines))
    (hvalueless : ∀ found task left,
      BuildsTo search (.initial [main]) (lineTasks read.lines) found (task :: left) →
        task.location.isDeleted gone = true → task.definesEquate = false)
    (hfiles : ∀ path, program.Embeds search path →
      search'.store.locate search'.directories path =
        search.store.locate search.directories path) :
    ∃ assembly', assemble search' main' listing = .ok assembly' ∧
      assembly'.segments = assembly.segments := by
  have hstart : WholeBlocks gone arms (BuildState.initial [main]).captures := trivial
  exact segments_eq_of_deletesDead hassembled hread hbuilt hleaves
    (hbodies.deletesDead hstart hunselected hvalueless) hfiles

/-- Data and a block in an arm that is not selected are deleted. -/
theorem segments_eq_without_unselected_block :
    ∃ main main' : SourceFile,
      main.text = " .segment \"c\",0x8000,9,0\n .c\n .if 0\n .db 1\n .if 1\nx: .db x\n .endif\n" ++
        " .else\n .db 2\n .endif\n" ∧
      main'.text = " .segment \"c\",0x8000,9,0\n .c\n .if 0\n .else\n .db 2\n .endif\n" ∧
      ∃ run : AssemblyRun ⟨.ofTable [], []⟩ main,
        (∀ arm, arm.line = 3 → ¬run.program.Selects ⟨.ofTable [], []⟩ arm) ∧
        DeletesBodies (.between 4 7) (fun arm => arm.line = 3) ⟨.ofTable [], []⟩
          (.initial [main]) (lineTasks run.source.lines) ∧
        ∃ assembly assembly', assemble ⟨.ofTable [], []⟩ main false = .ok assembly ∧
          assemble ⟨.ofTable [], []⟩ main' false = .ok assembly' ∧
          assembly'.segments = assembly.segments := by
  refine ⟨⟨"arms.s", _⟩, ⟨"arms.s", _⟩, rfl, rfl, (AssemblyRun.exists_of_any (fun run =>
    run.passes 40 (fun arm => decide (arm.line = 3)) fun state task => decide
      ((task.isSingle = true → (task.location.isDeleted (.between 4 7) = true ↔
        InArms (fun arm => arm.line = 3) (task.around state.captures))) ∧
      (task.location.isDeleted (.between 4 7) = true → task.definesEquate = false))) ?_).imp
        fun run hpasses => ?_⟩
  · decide +kernel
  · obtain ⟨hselected, hholds⟩ := AssemblyRun.of_passes hpasses
    have hunselected (arm : Location) (harm : arm.line = 3) := hselected arm (decide_eq_true harm)
    have htasks found task left hfound := of_decide_eq_true (hholds found task left hfound)
    refine ⟨hunselected, fun found task left hfound => (htasks found task left hfound).1, ?_⟩
    refine (run.assembles false).imp fun assembly hassembled => ?_
    refine (segments_eq_without_unselected hassembled run.read run.built hunselected ?_
      (fun found task left hfound => (htasks found task left hfound).1)
      (fun found task left hfound => (htasks found task left hfound).2)
      (fun path hpath => rfl)).imp fun assembly' hsame => ⟨hassembled, hsame⟩
    exact ⟨rfl, by decide +kernel, rfl, fun _ _ h => h, fun _ _ h => by cases h⟩

/-- Without the equate in the body of an arm that is not selected, a later block selects another
arm. -/
theorem equate_of_unselected_arm_counts :
    ∃ main main' : SourceFile,
      main.text = " .segment \"c\",0x8000,9,0\n .c\n .if 0\nk = 1\n .endif\n" ++
        " .if k\n .db 1\n .else\n .db 2\n .endif\n" ∧
      main'.text = " .segment \"c\",0x8000,9,0\n .c\n .if 0\n .endif\n" ++
        " .if k\n .db 1\n .else\n .db 2\n .endif\n" ∧
      Leaves (.between 4 4) ⟨.ofTable [], []⟩ main ⟨.ofTable [], []⟩ main' ∧
      ∃ run : AssemblyRun ⟨.ofTable [], []⟩ main,
        (∀ arm, arm.line = 3 → ¬run.program.Selects ⟨.ofTable [], []⟩ arm) ∧
        DeletesBodies (.between 4 4) (fun arm => arm.line = 3) ⟨.ofTable [], []⟩
          (.initial [main]) (lineTasks run.source.lines) ∧
        ∃ assembly assembly', assemble ⟨.ofTable [], []⟩ main false = .ok assembly ∧
          assemble ⟨.ofTable [], []⟩ main' false = .ok assembly' ∧
          assembly'.segments ≠ assembly.segments := by
  refine ⟨⟨"arms.s", _⟩, ⟨"arms.s", _⟩, rfl, rfl,
    ⟨rfl, by decide +kernel, rfl, fun _ _ h => h, fun _ _ h => by cases h⟩,
    (AssemblyRun.exists_of_any (fun run =>
      run.passes 40 (fun arm => decide (arm.line = 3)) fun state task => decide
        (task.isSingle = true → (task.location.isDeleted (.between 4 4) = true ↔
          InArms (fun arm => arm.line = 3) (task.around state.captures)))) ?_).imp
            fun run hpasses => ?_⟩
  · decide +kernel
  · obtain ⟨hselected, hholds⟩ := AssemblyRun.of_passes hpasses
    refine ⟨fun arm harm => hselected arm (decide_eq_true harm), fun found task left hfound =>
      of_decide_eq_true (hholds found task left hfound), ?_⟩
    refine (exists_ok_of_any (fun assembly => assembly.segments.any fun entry =>
      entry.2.chunks == [⟨0x8000, [1]⟩]) ?_).imp fun assembly h =>
        (exists_ok_of_any (fun assembly => !assembly.segments.any fun entry =>
          entry.2.chunks == [⟨0x8000, [1]⟩]) ?_).imp fun assembly' h' => ⟨h.1, h'.1, ?_⟩
    · decide +kernel
    · decide +kernel
    · intro hsame
      rw [hsame, h.2] at h'
      cases h'.2

end Asm65816
