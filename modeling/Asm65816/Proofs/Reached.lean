import Asm65816.Proofs.Agreement
import Asm65816.Proofs.EmittedOperations

/-!
# The operations that a walk comes to

A state of the first walk is a layout and the tasks that are left. Every operation of a run was the
first task of such a state, and the run goes on from there, whatever else could have been done. The
second walk fails exactly in an operation that it comes to, and each of its deposits belongs to an
operation that the first walk laid out at the same place.
-/

namespace Asm65816

/-! ## States of the first walk -/

/-- The first walk comes from a layout and its tasks to another layout with other tasks left. -/
inductive WalksTo (environment : Environment) :
    Layout → List Task → Layout → List Task → Prop where
  | here (layout : Layout) (tasks : List Task) : WalksTo environment layout tasks layout tasks
  | step {layout next found : Layout} {task : Task} {more tasks others : List Task} {event : Event}
      (advanced : task.advance environment layout = .ok (event, next, more))
      (rest : WalksTo environment next (more ++ tasks) found others) :
      WalksTo environment layout (task :: tasks) found others

/-- What holds of the tasks at the beginning and is handed on by each of them holds of all tasks. -/
theorem WalksTo.forall_tasks {environment : Environment} {layout found : Layout}
    {tasks others : List Task} {Good : Task → Prop}
    (walk : WalksTo environment layout tasks found others)
    (hstep : ∀ task layout event next more, Good task →
      Task.advance environment layout task = .ok (event, next, more) → ∀ later ∈ more, Good later)
    (htasks : ∀ task ∈ tasks, Good task) : ∀ task ∈ others, Good task := by
  induction walk with
  | here layout tasks => exact htasks
  | step advanced rest ih =>
    apply ih
    intro later hlater
    rcases List.mem_append.mp hlater with hmore | hrest
    · exact hstep _ _ _ _ _ (htasks _ List.mem_cons_self) advanced later hmore
    · exact htasks later (List.mem_cons_of_mem _ hrest)

/-- A complete run goes on from every state that the walk comes to. -/
theorem FirstWalk.of_walksTo {environment : Environment} {layout found last : Layout}
    {tasks others : List Task} {trace : List (Layout × Event)}
    (walk : FirstWalk environment layout tasks trace last)
    (h : WalksTo environment layout tasks found others) :
    ∃ tail, FirstWalk environment found others tail last := by
  induction h generalizing trace with
  | here layout tasks => exact ⟨trace, walk⟩
  | step advanced rest ih =>
    cases walk with
    | step advanced' rest' =>
      -- A task has one outcome, so that both runs go on alike.
      have hsame := Except.ok.inj (advanced.symm.trans advanced')
      simp only [Prod.mk.injEq] at hsame
      obtain ⟨-, rfl, rfl⟩ := hsame
      exact ih rest'

/-- Every event of a run is done by a task that the walk comes to. -/
theorem FirstWalk.exists_task_of_mem {environment : Environment} {layout last found : Layout}
    {tasks : List Task} {trace : List (Layout × Event)} {event : Event}
    (walk : FirstWalk environment layout tasks trace last) (h : (found, event) ∈ trace) :
    ∃ task others next more tail, WalksTo environment layout tasks found (task :: others) ∧
      task.advance environment found = .ok (event, next, more) ∧
      FirstWalk environment next (more ++ others) tail last := by
  induction walk with
  | done layout => cases h
  | @step layout next last task more tasks event' trace advanced rest ih =>
    rcases List.mem_cons.mp h with hhead | htail
    · obtain ⟨rfl, rfl⟩ := Prod.mk.inj hhead
      exact ⟨task, tasks, next, more, trace, .here _ _, advanced, rest⟩
    · obtain ⟨found', others, next', more', tail, hwalk, hfound⟩ := ih htail
      exact ⟨found', others, next', more', tail, .step advanced hwalk, hfound⟩

/-- An operation is laid out by the task of that operation, which leaves nothing to be done. -/
theorem Task.advance_operation {environment : Environment} {task : Task} {layout next : Layout}
    {placed : PlacedOperation} {size : Nat} {location : Location} {more : List Task}
    (h : task.advance environment layout = .ok (.operation placed size location, next, more)) :
    ∃ calls operation mid, task = .action calls (.operation operation location) ∧
      placeOperation environment calls location layout operation = .ok (placed, size, mid) ∧
      mid.occupy size = .ok next ∧ more = [] := by
  cases task with
  | leave location => cases h
  | action calls action =>
    cases action with
    | operation operation location =>
      simp only [Task.advance, bind_eq_ok, pure_eq_ok, failingAt_eq_ok] at h
      obtain ⟨⟨placed', size', mid⟩, hplaced, reached, hreached, h⟩ := h
      cases h
      exact ⟨calls, operation, mid, rfl, hplaced, hreached, rfl⟩
    | callMacro name operands location =>
      simp only [Task.advance, bind_eq_ok, pure_eq_ok] at h
      obtain ⟨_, -, h⟩ := h
      cases h
    | conditional arms location =>
      simp only [Task.advance, bind_eq_ok, pure_eq_ok] at h
      obtain ⟨_, -, h⟩ := h
      cases h
    | argumentLoop body location =>
      cases calls with
      | nil => cases h
      | cons call outer => cases h

/-! ## Operations of both walks -/

/-- An operation that the second walk has come to with the layout `second`: how the first walk laid
it out, and how that walk went on to the layout `final`. -/
inductive Reached (environment : Environment) (actions : List Action) (final : Layout)
    (placed : PlacedOperation) (location : Location) (second : Layout) : Prop where
  | intro {calls : List MacroCall} {operation : Operation} {found mid next : Layout}
      {others : List Task} {tail : List (Layout × Event)}
      (walked : WalksTo environment Layout.empty (bodyTasks [] actions) found
        (.action calls (.operation operation location) :: others))
      (laidOut : placeOperation environment calls location found operation =
        .ok (placed, placed.length, mid))
      (occupied : mid.occupy placed.length = .ok next)
      (rest : FirstWalk environment next others tail final)
      (follows : final.Follows found second)

section Reaching

variable {environment : Environment} {actions : List Action} {steps : List Step} {layout : Layout}
  {labels : List Resolution}

/-- The second walk comes to operations that the first one laid out at the same place. -/
theorem layoutProgram_reached {before after : List Event} {placed : PlacedOperation} {size : Nat}
    {location : Location} {emission : Emission}
    (hlayout : layoutProgram environment actions = .ok (steps, layout))
    (hevents : stepEvents steps = before ++ .operation placed size location :: after)
    (hbefore : emitEvents labels (Emission.initial layout) before = .ok emission) :
    size = placed.length ∧ Reached environment actions layout placed location emission.layout := by
  obtain ⟨-, trace, htrace, walk⟩ := layoutProgram_firstWalk hlayout
  rw [hevents] at htrace
  obtain ⟨early, later, rfl, hearly, hlater⟩ := List.map_eq_append_iff.mp htrace
  obtain ⟨⟨found, event⟩, late, rfl, hevent, -⟩ := List.map_eq_cons_iff.mp hlater
  dsimp only at hevent
  subst hevent
  have hmem : (found, Event.operation placed size location) ∈
      early ++ (found, .operation placed size location) :: late := by simp
  have hinitial : layout.Follows Layout.empty (Emission.initial layout).layout :=
    .initial layout
  have hfollows : layout.Follows found emission.layout :=
    walk.follows hinitial rfl (hearly ▸ hbefore)
  obtain rfl := walk.size_eq_length hmem
  obtain ⟨task, others, next, more, tail, hwalk, hadvanced, hrest⟩ := walk.exists_task_of_mem hmem
  obtain ⟨calls, operation, mid, rfl, hplaced, hoccupied, rfl⟩ :=
    Task.advance_operation hadvanced
  exact ⟨rfl, .intro hwalk hplaced hoccupied hrest hfollows⟩

/-- A program that is laid out has done every task that the walk comes to. -/
theorem layoutProgram_advances {found : Layout} {task : Task} {others : List Task}
    (hlayout : layoutProgram environment actions = .ok (steps, layout))
    (hwalk : WalksTo environment Layout.empty (bodyTasks [] actions) found (task :: others)) :
    ∃ event next more, task.advance environment found = .ok (event, next, more) := by
  obtain ⟨-, trace, -, walk⟩ := layoutProgram_firstWalk hlayout
  obtain ⟨tail, hrest⟩ := walk.of_walksTo hwalk
  cases hrest with
  | step advanced rest => exact ⟨_, _, _, advanced⟩

/-- Taking events fails exactly in an operation that is reached. -/
theorem emitEvents_eq_error {emission : Emission} {events : List Event} {failure : Failure} :
    emitEvents labels emission events = .error failure ↔
      ∃ before placed size after reached,
        events = before ++ .operation placed size failure.location :: after ∧
        emitEvents labels emission before = .ok reached ∧
        reached.operation labels placed size = .error failure.fault := by
  constructor
  · intro h
    induction events generalizing emission with
    | nil => cases h
    | cons event rest ih =>
      rcases bind_eq_error.mp h with hfails | ⟨next, hnext, hrest⟩
      · cases event with
        | operation placed size location =>
          obtain ⟨hfault, rfl⟩ := failingAt_eq_error.mp hfails
          exact ⟨[], placed, size, rest, emission, rfl, rfl, hfault⟩
        | enter call location => cases hfails
        | leave location => cases hfails
      · obtain ⟨before, placed, size, after, reached, rfl, hbefore, hfault⟩ := ih hrest
        refine ⟨event :: before, placed, size, after, reached, rfl, ?_, hfault⟩
        exact bind_eq_ok.mpr ⟨next, hnext, hbefore⟩
  · rintro ⟨before, placed, size, after, reached, rfl, hbefore, hfault⟩
    rw [emitEvents_append, hbefore, ok_bind]
    exact bind_eq_error.mpr (.inl (failingAt_eq_error.mpr ⟨hfault, rfl⟩))

end Reaching

/-- Every operation of an assembly is one of both walks. -/
theorem AssemblyRun.reached_of_mem {search : AssetSearch} {main : SourceFile}
    (run : AssemblyRun search main) {entry : EmittedOperation} (h : entry ∈ run.operations) :
    ∃ location second, Reached (run.program.environment search) run.program.actions run.layout
        entry.operation location second ∧
      emitOperation run.labels second entry.operation = .ok entry.emitted := by
  obtain ⟨before, size, location, after, reached, hevents, hbefore, hemits⟩ :=
    run.emitted.exists_of_mem h
  obtain ⟨-, hreached⟩ := layoutProgram_reached run.laidOut hevents hbefore
  exact ⟨location, reached.layout, hreached, hemits⟩

/-- Every deposit of an assembly belongs to an operation of both walks. -/
theorem AssemblyRun.reached {search : AssetSearch} {main : SourceFile}
    (run : AssemblyRun search main) {deposit : Deposit} (h : deposit ∈ run.deposits) :
    ∃ location second emitted,
      Reached (run.program.environment search) run.program.actions run.layout deposit.operation
        location second ∧
      emitOperation run.labels second deposit.operation = .ok emitted ∧
      deposit = emitted.deposit deposit.operation := by
  rw [run.deposits_eq] at h
  obtain ⟨entry, hentry, rfl⟩ := List.mem_map.mp h
  obtain ⟨location, second, hreached, hemits⟩ := run.reached_of_mem hentry
  exact ⟨location, second, entry.emitted, hreached, hemits, rfl⟩

/-! ## Programs that are laid out -/

/-- An assembly fails where its program does. -/
theorem assemble_eq_error_of_emit {search : AssetSearch} {main : SourceFile} {listing : Bool}
    {source : SourceLines} {program : Program} {failure : Failure}
    (hread : readSource 0 main.name main.text [] = .ok source)
    (hbuilt : buildProgram search main source.lines = .ok program)
    (hemit : program.emit search true = .error failure) :
    assemble search main listing = .error ⟨.failed failure, program.sources⟩ := by
  have hfails := Program.emit_eq_error hemit listing
  unfold assemble assembleLines
  refine bind_eq_error.mpr (.inr ⟨source, mapError_eq_ok.mpr hread, ?_⟩)
  refine bind_eq_error.mpr (.inl ?_)
  refine bind_eq_error.mpr (.inr ⟨program, mapError_eq_ok.mpr hbuilt, ?_⟩)
  exact bind_eq_error.mpr (.inl (mapError_eq_error.mpr ⟨_, hfails, rfl⟩))

/-- A main source that is laid out and resolved, with everything it went through. Its second walk
may still fail. -/
structure LayoutRun (search : AssetSearch) (main : SourceFile) where
  source : SourceLines
  program : Program
  steps : List Step
  layout : Layout
  labels : List Resolution
  read : readSource 0 main.name main.text [] = .ok source
  built : buildProgram search main source.lines = .ok program
  laidOut : layoutProgram (program.environment search) program.actions = .ok (steps, layout)
  resolved : layout.resolveAll = .ok labels

/-- An assembly fails where its second walk comes to an operation that fails. -/
theorem LayoutRun.assemble_eq_error {search : AssetSearch} {main : SourceFile}
    (run : LayoutRun search main) (listing : Bool) {before after : List Event}
    {placed : PlacedOperation} {size : Nat} {location : Location} {emission : Emission}
    {fault : Fault}
    (hevents : stepEvents run.steps = before ++ .operation placed size location :: after)
    (hbefore : emitEvents run.labels (Emission.initial run.layout) before = .ok emission)
    (hfault : emission.operation run.labels placed size = .error fault) :
    assemble search main listing =
      .error ⟨.failed ⟨fault, location⟩, run.program.sources⟩ := by
  apply assemble_eq_error_of_emit run.read run.built
  refine bind_eq_error.mpr (.inr ⟨(run.steps, run.layout), run.laidOut, ?_⟩)
  refine bind_eq_error.mpr (.inr ⟨run.labels, run.resolved, ?_⟩)
  rw [if_pos rfl, emitProgram_eq_emitEvents, emitEvents_eq_error]
  exact ⟨before, placed, size, after, emission, hevents, hbefore, hfault⟩

/-- Takes events one after the other and gathers their deposits. -/
def SecondWalk.find? (labels : List Resolution) : (emission : Emission) → (events : List Event) →
    Option { found : List Deposit × Emission // SecondWalk labels emission events found.1 found.2 }
  | emission, [] => some ⟨([], emission), .done emission⟩
  | emission, .operation placed size _ :: rest =>
    match hemits : emitOperation labels emission.layout placed with
    | .error _ => none
    | .ok emitted =>
      match htaken : emission.operation labels placed size with
      | .error _ => none
      | .ok next => do
        let ⟨(deposits, last), walk⟩ ← SecondWalk.find? labels next rest
        return ⟨(emitted.deposit placed :: deposits, last), .operation hemits htaken walk⟩
  | emission, .enter call _ :: rest => do
    let ⟨found, walk⟩ ← SecondWalk.find? labels (emission.showCall call) rest
    return ⟨found, .enter walk⟩
  | emission, .leave _ :: rest => do
    let ⟨found, walk⟩ ← SecondWalk.find? labels emission rest
    return ⟨found, .leave walk⟩

/-- Goes through the assembly of a main source, if it succeeds. -/
def AssemblyRun.find? (search : AssetSearch) (main : SourceFile) :
    Option (AssemblyRun search main) :=
  match hread : readSource 0 main.name main.text [] with
  | .error _ => none
  | .ok source =>
    match hbuilt : buildProgram search main source.lines with
    | .error _ => none
    | .ok program =>
      match hlaidOut : layoutProgram (program.environment search) program.actions with
      | .error _ => none
      | .ok (steps, layout) =>
        match hresolved : layout.resolveAll with
        | .error _ => none
        | .ok labels => do
          let ⟨(deposits, emission), walk⟩ ←
            SecondWalk.find? labels (Emission.initial layout) (stepEvents steps)
          return ⟨source, program, steps, layout, labels, deposits, emission, hread, hbuilt,
            hlaidOut, hresolved, walk⟩

/-- A run that is found and passes a test. -/
theorem AssemblyRun.exists_of_any {search : AssetSearch} {main : SourceFile}
    (test : AssemblyRun search main → Bool) (h : (AssemblyRun.find? search main).any test = true) :
    ∃ run, test run = true := by
  obtain ⟨run, -, hrun⟩ := (Option.any_eq_true _ _).mp h
  exact ⟨run, hrun⟩

/-- A main source with a run assembles. -/
theorem AssemblyRun.assembles {search : AssetSearch} {main : SourceFile}
    (run : AssemblyRun search main) (listing : Bool) :
    ∃ assembly, assemble search main listing = .ok assembly :=
  assemble_of_emissionOf listing run.emissionOf_eq

end Asm65816
