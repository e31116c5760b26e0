import Asm65816.Proofs.ListingIndependence

/-!
# The two walks through a program, event by event

Laying out and emitting go through a program in the order of its events: operations, and the
beginnings and ends of expansions. The first walk is a machine over a list of tasks, which grows
when a macro call, a conditional block or a loop is expanded; it carries no bound on the nesting
of macros. The second walk takes the events that the first one left behind.

Both are tied to the recursive definitions: whatever is laid out is the outcome of a run of the
task machine, and emitting steps is emitting their events in turn.
-/

namespace Asm65816

/-- What a walk comes across. -/
inductive Event where
  | operation (operation : PlacedOperation) (size : Nat) (location : Location)
  /-- An expansion begins, under the name of the macro if it is a call. -/
  | enter (call : Option String) (location : Location)
  /-- The innermost expansion ends. -/
  | leave (location : Location)

mutual

/-- The events of a step in the order in which a walk meets them. -/
def Step.events : Step → List Event
  | .operation operation size location => [.operation operation size location]
  | .expansion call steps location =>
    .enter call location :: (stepEvents steps ++ [.leave location])

/-- The events of steps one after the other. -/
def stepEvents : List Step → List Event
  | [] => []
  | step :: rest => step.events ++ stepEvents rest

end

/-- The events of a sequence of steps are those of its two parts. -/
theorem stepEvents_append (first second : List Step) :
    stepEvents (first ++ second) = stepEvents first ++ stepEvents second := by
  induction first with
  | nil => rfl
  | cons step rest ih => simp only [List.cons_append, stepEvents, ih, List.append_assoc]

/-! ## The first walk -/

/-- What the first walk still has to do. -/
inductive Task where
  /-- An action inside the given macro calls, innermost first. -/
  | action (calls : List MacroCall) (action : Action)
  | leave (location : Location)

/-- The tasks of a body inside the given macro calls. -/
def bodyTasks (calls : List MacroCall) (body : List Action) : List Task :=
  body.map (Task.action calls)

/-- The body of the first arm whose condition holds, and no actions if there is none. -/
def chosenBody (environment : Environment) (calls : List MacroCall) (address : Int) :
    List ConditionalArm → Except Failure (List Action)
  | [] => .ok []
  | .mk condition body location :: rest => do
    if ← failingAt location (conditionHolds environment calls address condition) then
      return body
    else chosenBody environment calls address rest

/-- The tasks of a loop body, once for every further argument of the innermost call. -/
def roundTasks (call : MacroCall) (outer : List MacroCall) (rounds : List (Expr × Nat))
    (body : List Action) : List Task :=
  rounds.flatMap fun (value, index) =>
    bodyTasks ({ call with round := some (index, value) } :: outer) body

/-- Does the first part of a task: its event, the layout after it, and what the task leaves to
be done before everything else. -/
def Task.advance (environment : Environment) (layout : Layout) :
    Task → Except Failure (Event × Layout × List Task)
  | .action calls (.operation operation location) => do
    let (placed, size, layout) ←
      failingAt location (placeOperation environment calls location layout operation)
    let layout ← failingAt location (layout.occupy size)
    return (.operation placed size location, layout, [])
  | .action calls (.callMacro name operands location) => do
    let (call, body) ← failingAt location (openCall environment calls name operands)
    return (.enter (some name) location, layout,
      bodyTasks (call :: calls) body ++ [.leave location])
  | .action calls (.conditional arms location) => do
    let body ← chosenBody environment calls layout.address arms
    return (.enter none location, layout, bodyTasks calls body ++ [.leave location])
  | .action calls (.argumentLoop body location) =>
    match calls with
    | [] => .error ⟨.loopOutsideMacro, location⟩
    | call :: outer =>
      .ok (.enter none location, layout,
        roundTasks call outer call.furtherArguments.zipIdx body ++ [.leave location])
  | .leave location => .ok (.leave location, layout, [])

/-- A complete run of the first walk: from a layout and its tasks to the last layout, through
events that are recorded with the layout before each of them. -/
inductive FirstWalk (environment : Environment) :
    Layout → List Task → List (Layout × Event) → Layout → Prop where
  | done (layout : Layout) : FirstWalk environment layout [] [] layout
  | step {layout next last : Layout} {task : Task} {more tasks : List Task} {event : Event}
      {trace : List (Layout × Event)}
      (advanced : task.advance environment layout = .ok (event, next, more))
      (rest : FirstWalk environment next (more ++ tasks) trace last) :
      FirstWalk environment layout (task :: tasks) ((layout, event) :: trace) last

/-- Doing `tasks` leads from one layout to another through `trace`, whatever is done after. -/
def Spans (environment : Environment) (layout : Layout) (tasks : List Task)
    (trace : List (Layout × Event)) (next : Layout) : Prop :=
  ∀ others tail last, FirstWalk environment next others tail last →
    FirstWalk environment layout (tasks ++ others) (trace ++ tail) last

namespace Spans

variable {environment : Environment}

/-- Without tasks nothing happens. -/
theorem nil (layout : Layout) : Spans environment layout [] [] layout :=
  fun _ _ _ walk => walk

/-- Tasks done one after the other. -/
theorem append {layout mid next : Layout} {first second : List Task}
    {early late : List (Layout × Event)} (hfirst : Spans environment layout first early mid)
    (hsecond : Spans environment mid second late next) :
    Spans environment layout (first ++ second) (early ++ late) next := by
  intro others tail last walk
  rw [List.append_assoc, List.append_assoc]
  exact hfirst _ _ _ (hsecond _ _ _ walk)

/-- A task that is done at once. -/
theorem single {layout next : Layout} {task : Task} {event : Event}
    (h : task.advance environment layout = .ok (event, next, [])) :
    Spans environment layout [task] [(layout, event)] next :=
  fun _ _ _ walk => .step h walk

/-- An expansion: its beginning, what it expands to, and its end. -/
theorem expansion {layout next : Layout} {task : Task} {inner : List Task}
    {trace : List (Layout × Event)} (call : Option String) (location : Location)
    (h : task.advance environment layout =
      .ok (.enter call location, layout, inner ++ [.leave location]))
    (hinner : Spans environment layout inner trace next) :
    Spans environment layout [task]
      ((layout, .enter call location) :: (trace ++ [(next, .leave location)])) next := by
  intro others tail last walk
  have hleave : Spans environment next [.leave location] [(next, .leave location)] next :=
    single rfl
  exact .step h (hinner.append hleave _ _ _ walk)

/-- Tasks that span to the last layout are a complete run. -/
theorem firstWalk {layout next : Layout} {tasks : List Task} {trace : List (Layout × Event)}
    (h : Spans environment layout tasks trace next) :
    FirstWalk environment layout tasks trace next := by
  simpa only [List.append_nil] using h [] [] next (.done next)

end Spans

/-- A way of laying out bodies that a run of the first walk can follow. -/
def Followed (environment : Environment) (place : ActionPlacer) : Prop :=
  ∀ calls layout actions steps next, place calls layout actions = .ok (steps, next) →
    ∃ trace, trace.map Prod.snd = stepEvents steps ∧
      Spans environment layout (bodyTasks calls actions) trace next

/-- The rounds of a loop are followed when its body is. -/
theorem rounds_spans {environment : Environment} {deeper : Option ActionPlacer}
    {body : List Action} (hbody : ∀ calls layout steps next,
      placeActions environment deeper calls layout body = .ok (steps, next) →
        ∃ trace, trace.map Prod.snd = stepEvents steps ∧
          Spans environment layout (bodyTasks calls body) trace next)
    (call : MacroCall) (outer : List MacroCall) (rounds : List (Expr × Nat))
    {layout next : Layout} {before steps : List Step}
    (h : rounds.foldlM
        (fun (steps, layout) (value, index) => do
          let round := { call with round := some (index, value) }
          let (more, layout) ← placeActions environment deeper (round :: outer) layout body
          return (steps ++ more, layout))
        (before, layout) = .ok (steps, next)) :
    ∃ trace, stepEvents before ++ trace.map Prod.snd = stepEvents steps ∧
      Spans environment layout (roundTasks call outer rounds body) trace next := by
  induction rounds generalizing before layout with
  | nil =>
    obtain ⟨rfl, rfl⟩ : before = steps ∧ layout = next := by
      simpa only [List.foldlM_nil, pure_eq_ok, Prod.mk.injEq] using h
    exact ⟨[], by simp, .nil _⟩
  | cons round rest ih =>
    obtain ⟨value, index⟩ := round
    simp only [List.foldlM_cons, bind_eq_ok, pure_eq_ok] at h
    obtain ⟨⟨through, mid⟩, ⟨⟨more, reached⟩, hmore, hthrough⟩, hrest⟩ := h
    obtain ⟨rfl, rfl⟩ := Prod.mk.inj hthrough
    obtain ⟨early, hearly, hspans⟩ := hbody _ _ _ _ hmore
    obtain ⟨late, hlate, hlater⟩ := ih hrest
    refine ⟨early ++ late, ?_, hspans.append hlater⟩
    rw [← hlate, stepEvents_append, List.map_append, hearly, List.append_assoc]

mutual

/-- Whatever laying out an action gives, a run of the first walk gives as well. -/
theorem placeAction_spans {environment : Environment} {deeper : Option ActionPlacer}
    (hdeeper : ∀ place, deeper = some place → Followed environment place) :
    ∀ (action : Action) (calls : List MacroCall) (layout : Layout) (step : Step) (next : Layout),
      placeAction environment deeper calls layout action = .ok (step, next) →
        ∃ trace, trace.map Prod.snd = step.events ∧
          Spans environment layout [.action calls action] trace next
  | .operation operation location, calls, layout, step, next, h => by
    simp only [placeAction, bind_eq_ok, pure_eq_ok] at h
    obtain ⟨⟨placed, size, mid⟩, hplaced, reached, hreached, hstep⟩ := h
    obtain ⟨rfl, rfl⟩ := Prod.mk.inj hstep
    refine ⟨[(layout, .operation placed size location)], rfl, .single ?_⟩
    simp only [Task.advance, bind_eq_ok, pure_eq_ok]
    exact ⟨_, hplaced, _, hreached, rfl⟩
  | .callMacro name operands location, calls, layout, step, next, h => by
    simp only [placeAction, bind_eq_ok] at h
    obtain ⟨⟨call, body⟩, hopen, h⟩ := h
    cases hd : deeper with
    | none => simp only [hd, reduceCtorEq] at h
    | some place =>
      simp only [hd, bind_eq_ok, pure_eq_ok] at h
      obtain ⟨⟨steps, reached⟩, hplace, hstep⟩ := h
      obtain ⟨rfl, rfl⟩ := Prod.mk.inj hstep
      obtain ⟨trace, htrace, hspans⟩ := hdeeper place hd _ _ _ _ _ hplace
      refine ⟨_, ?_, .expansion (some name) location ?_ hspans⟩
      · simp [Step.events, htrace]
      · simp only [Task.advance, bind_eq_ok, pure_eq_ok]
        exact ⟨_, hopen, rfl⟩
  | .conditional arms location, calls, layout, step, next, h => by
    simp only [placeAction, bind_eq_ok, pure_eq_ok] at h
    obtain ⟨⟨steps, reached⟩, harms, hstep⟩ := h
    obtain ⟨rfl, rfl⟩ := Prod.mk.inj hstep
    obtain ⟨body, trace, hbody, htrace, hspans⟩ :=
      placeArms_spans hdeeper arms calls layout steps reached harms
    refine ⟨_, ?_, .expansion none location ?_ hspans⟩
    · simp [Step.events, htrace]
    · simp only [Task.advance, bind_eq_ok, pure_eq_ok]
      exact ⟨_, hbody, rfl⟩
  | .argumentLoop body location, [], layout, step, next, h => by
    simp only [placeAction, reduceCtorEq] at h
  | .argumentLoop body location, call :: outer, layout, step, next, h => by
    simp only [placeAction, bind_eq_ok, pure_eq_ok] at h
    obtain ⟨⟨steps, reached⟩, hrounds, hstep⟩ := h
    obtain ⟨rfl, rfl⟩ := Prod.mk.inj hstep
    obtain ⟨trace, htrace, hspans⟩ :=
      rounds_spans (placeActions_spans hdeeper body) call outer _ hrounds
    refine ⟨_, ?_, .expansion none location rfl hspans⟩
    simp only [stepEvents, List.nil_append] at htrace
    simp [Step.events, htrace]

/-- Whatever laying out actions gives, a run of the first walk gives as well. -/
theorem placeActions_spans {environment : Environment} {deeper : Option ActionPlacer}
    (hdeeper : ∀ place, deeper = some place → Followed environment place) :
    ∀ (actions : List Action) (calls : List MacroCall) (layout : Layout) (steps : List Step)
      (next : Layout), placeActions environment deeper calls layout actions = .ok (steps, next) →
        ∃ trace, trace.map Prod.snd = stepEvents steps ∧
          Spans environment layout (bodyTasks calls actions) trace next
  | [], calls, layout, steps, next, h => by
    simp only [placeActions, Except.ok.injEq, Prod.mk.injEq] at h
    obtain ⟨rfl, rfl⟩ := h
    exact ⟨[], rfl, .nil _⟩
  | action :: rest, calls, layout, steps, next, h => by
    simp only [placeActions, bind_eq_ok, pure_eq_ok] at h
    obtain ⟨⟨first, mid⟩, hfirst, ⟨others, reached⟩, hothers, hsteps⟩ := h
    obtain ⟨rfl, rfl⟩ := Prod.mk.inj hsteps
    obtain ⟨early, hearly, hspans⟩ :=
      placeAction_spans hdeeper action calls layout first mid hfirst
    obtain ⟨late, hlate, hlater⟩ :=
      placeActions_spans hdeeper rest calls mid others reached hothers
    refine ⟨early ++ late, ?_, hspans.append hlater⟩
    rw [List.map_append, hearly, hlate, stepEvents]

/-- Whatever laying out arms gives, a run through the chosen body gives as well. -/
theorem placeArms_spans {environment : Environment} {deeper : Option ActionPlacer}
    (hdeeper : ∀ place, deeper = some place → Followed environment place) :
    ∀ (arms : List ConditionalArm) (calls : List MacroCall) (layout : Layout)
      (steps : List Step) (next : Layout),
      placeArms environment deeper calls layout arms = .ok (steps, next) →
        ∃ body trace, chosenBody environment calls layout.address arms = .ok body ∧
          trace.map Prod.snd = stepEvents steps ∧
            Spans environment layout (bodyTasks calls body) trace next
  | [], calls, layout, steps, next, h => by
    simp only [placeArms, Except.ok.injEq, Prod.mk.injEq] at h
    obtain ⟨rfl, rfl⟩ := h
    exact ⟨[], [], rfl, rfl, .nil _⟩
  | .mk condition body location :: rest, calls, layout, steps, next, h => by
    simp only [placeArms, bind_eq_ok] at h
    obtain ⟨holds, hholds, h⟩ := h
    cases holds with
    | true =>
      obtain ⟨trace, htrace, hspans⟩ := placeActions_spans hdeeper body calls layout steps next h
      refine ⟨body, trace, ?_, htrace, hspans⟩
      simp only [chosenBody, bind_eq_ok]
      exact ⟨true, hholds, rfl⟩
    | false =>
      obtain ⟨chosen, trace, hchosen, htrace, hspans⟩ :=
        placeArms_spans hdeeper rest calls layout steps next h
      refine ⟨chosen, trace, ?_, htrace, hspans⟩
      simp only [chosenBody, bind_eq_ok]
      exact ⟨false, hholds, hchosen⟩

end

/-- Laying out to any depth of macro calls is followed by the first walk, which has no depth. -/
theorem placeTo_followed (environment : Environment) (depth : Nat) :
    Followed environment (placeTo environment depth) := by
  induction depth with
  | zero =>
    intro calls layout actions steps next h
    exact placeActions_spans (fun place hplace => by cases hplace) actions calls layout steps next h
  | succ depth ih =>
    intro calls layout actions steps next h
    refine placeActions_spans (fun place hplace => ?_) actions calls layout steps next h
    cases hplace
    exact ih

/-- A program that is laid out is the outcome of a complete first walk through its actions, whose
events are those of the steps, and no flow structure is open at its end. -/
theorem layoutProgram_firstWalk {environment : Environment} {actions : List Action}
    {steps : List Step} {layout : Layout}
    (h : layoutProgram environment actions = .ok (steps, layout)) :
    layout.flow.innermost? = none ∧ ∃ trace, trace.map Prod.snd = stepEvents steps ∧
      FirstWalk environment Layout.empty (bodyTasks [] actions) trace layout := by
  simp only [layoutProgram, bind_eq_ok] at h
  obtain ⟨⟨found, reached⟩, hplace, h⟩ := h
  obtain ⟨trace, htrace, hspans⟩ := placeTo_followed environment _ _ _ _ _ _ hplace
  cases hopen : reached.flow.innermost? with
  | some frame => simp only [hopen, reduceCtorEq] at h
  | none =>
    simp only [hopen, pure_eq_ok, Prod.mk.injEq] at h
    obtain ⟨rfl, rfl⟩ := h
    exact ⟨hopen, trace, htrace, hspans.firstWalk⟩

/-! ## The second walk -/

/-- The state before the second walk through a program that is laid out. -/
def Emission.initial (layout : Layout) : Emission := ⟨layout.rewind, some Listing.empty⟩

/-- Takes one event of the second walk. -/
def Emission.event (labels : List Resolution) (emission : Emission) :
    Event → Except Failure Emission
  | .operation operation size location =>
    failingAt location (emission.operation labels operation size)
  | .enter call _ => .ok (emission.showCall call)
  | .leave _ => .ok emission

/-- Takes events one after the other. -/
def emitEvents (labels : List Resolution) (emission : Emission) (events : List Event) :
    Except Failure Emission :=
  events.foldlM (Emission.event labels) emission

/-- Events of two parts are taken one part after the other. -/
theorem emitEvents_append (labels : List Resolution) (emission : Emission)
    (first second : List Event) :
    emitEvents labels emission (first ++ second) =
      emitEvents labels emission first >>= fun reached => emitEvents labels reached second :=
  List.foldlM_append

mutual

/-- Emitting a step is taking its events. -/
theorem emitStep_eq_emitEvents (labels : List Resolution) :
    ∀ (step : Step) (emission : Emission),
      emitStep labels emission step = emitEvents labels emission step.events
  | .operation operation size location, emission => by
    simp only [emitStep, Step.events, emitEvents, List.foldlM_cons, List.foldlM_nil,
      Emission.event, bind_pure]
  | .expansion call steps location, emission => by
    rw [emitStep, emitSteps_eq_emitEvents labels steps, Step.events]
    change _ = emitEvents labels (emission.showCall call) (stepEvents steps ++ [.leave location])
    rw [emitEvents_append]
    exact (bind_pure _).symm

/-- Emitting steps is taking their events. -/
theorem emitSteps_eq_emitEvents (labels : List Resolution) :
    ∀ (steps : List Step) (emission : Emission),
      emitSteps labels emission steps = emitEvents labels emission (stepEvents steps)
  | [], emission => rfl
  | step :: rest, emission => by
    rw [emitSteps, stepEvents, emitEvents_append, emitStep_eq_emitEvents labels step]
    congr 1
    funext next
    exact emitSteps_eq_emitEvents labels rest next

end

/-- Emitting a program is taking the events of its steps. -/
theorem emitProgram_eq_emitEvents (layout : Layout) (labels : List Resolution)
    (steps : List Step) :
    emitProgram layout labels steps =
      emitEvents labels (Emission.initial layout) (stepEvents steps) :=
  emitSteps_eq_emitEvents labels steps _

/-- What one operation leaves in memory. -/
structure Deposit where
  /-- The segment that is current. -/
  segment : Option String
  address : Int
  operation : PlacedOperation
  bytes : List UInt8

/-- The deposit of an operation from what it emits. -/
def Emitted.deposit (emitted : Emitted) (operation : PlacedOperation) : Deposit :=
  ⟨emitted.layout.current, emitted.layout.address, operation, emitted.code.bytes⟩

/-- A run of the second walk from one state to another through events, with the deposits of its
operations in order. -/
inductive SecondWalk (labels : List Resolution) :
    Emission → List Event → List Deposit → Emission → Prop where
  | done (emission : Emission) : SecondWalk labels emission [] [] emission
  | operation {emission next last : Emission} {operation : PlacedOperation} {size : Nat}
      {location : Location} {emitted : Emitted} {events : List Event} {deposits : List Deposit}
      (emits : emitOperation labels emission.layout operation = .ok emitted)
      (taken : emission.operation labels operation size = .ok next)
      (rest : SecondWalk labels next events deposits last) :
      SecondWalk labels emission (.operation operation size location :: events)
        (emitted.deposit operation :: deposits) last
  | enter {emission last : Emission} {call : Option String} {location : Location}
      {events : List Event} {deposits : List Deposit}
      (rest : SecondWalk labels (emission.showCall call) events deposits last) :
      SecondWalk labels emission (.enter call location :: events) deposits last
  | leave {emission last : Emission} {location : Location} {events : List Event}
      {deposits : List Deposit} (rest : SecondWalk labels emission events deposits last) :
      SecondWalk labels emission (.leave location :: events) deposits last

/-- An operation is taken exactly when it emits as many bytes as it was sized at and these can
be placed. -/
theorem operation_eq_ok {emission next : Emission} {labels : List Resolution}
    {operation : PlacedOperation} {size : Nat} :
    emission.operation labels operation size = .ok next ↔
      ∃ emitted, emitOperation labels emission.layout operation = .ok emitted ∧
        emitted.code.bytes.length = size ∧
        ∃ layout, emitted.layout.place emitted.code.bytes = .ok layout ∧
          next = ⟨layout, emission.listing.map fun listing => listing.record emitted⟩ := by
  simp only [Emission.operation, bind_eq_ok]
  refine exists_congr fun emitted => and_congr_right fun _ => ?_
  by_cases hsize : emitted.code.bytes.length = size
  · simp only [hsize, ne_eq, not_true_eq_false, if_false, bind_eq_ok, pure_eq_ok, true_and]
    exact exists_congr fun layout => and_congr_right fun _ => eq_comm
  · simp [hsize]

/-- Taking events succeeds exactly along the runs of the second walk. -/
theorem emitEvents_eq_ok {labels : List Resolution} {emission last : Emission}
    {events : List Event} :
    emitEvents labels emission events = .ok last ↔
      ∃ deposits, SecondWalk labels emission events deposits last := by
  constructor
  · intro h
    induction events generalizing emission with
    | nil =>
      obtain rfl : emission = last := pure_eq_ok.mp h
      exact ⟨[], .done emission⟩
    | cons event rest ih =>
      simp only [emitEvents, List.foldlM_cons, bind_eq_ok] at h
      obtain ⟨next, hevent, hrest⟩ := h
      obtain ⟨deposits, hwalk⟩ := ih hrest
      cases event with
      | operation operation size location =>
        have htaken := failingAt_eq_ok.mp hevent
        obtain ⟨emitted, hemits, -⟩ := operation_eq_ok.mp htaken
        exact ⟨_, .operation hemits htaken hwalk⟩
      | enter call location =>
        cases hevent
        exact ⟨deposits, .enter hwalk⟩
      | leave location =>
        cases hevent
        exact ⟨deposits, .leave hwalk⟩
  · rintro ⟨deposits, walk⟩
    induction walk with
    | done emission => rfl
    | operation emits taken rest ih =>
      simp only [emitEvents, List.foldlM_cons, bind_eq_ok]
      exact ⟨_, failingAt_eq_ok.mpr taken, ih⟩
    | enter rest ih => exact ih
    | leave rest ih => exact ih

/-- What every operation keeps, in view of the deposits so far, a run of the second walk keeps. -/
theorem SecondWalk.invariant {labels : List Resolution} {Holds : Layout → List Deposit → Prop}
    (hstep : ∀ {emission next : Emission} {placed : PlacedOperation} {size : Nat}
      {emitted : Emitted} {deposits : List Deposit}, Holds emission.layout deposits →
      emitOperation labels emission.layout placed = .ok emitted →
      emission.operation labels placed size = .ok next →
        Holds next.layout (deposits ++ [emitted.deposit placed]))
    {emission last : Emission} {events : List Event} {before deposits : List Deposit}
    (walk : SecondWalk labels emission events deposits last)
    (h : Holds emission.layout before) : Holds last.layout (before ++ deposits) := by
  induction walk generalizing before with
  | done emission =>
    rw [List.append_nil]
    exact h
  | operation emits taken rest ih =>
    have hnext := ih (hstep h emits taken)
    rwa [List.append_assoc, List.singleton_append] at hnext
  | @enter emission last call location events deposits rest ih =>
    cases call
    · exact ih h
    · exact ih h
  | leave rest ih => exact ih h

/-! ## Whole assemblies -/

/-- What the definitions of a program say to the walks. -/
def Program.environment (program : Program) (search : AssetSearch) : Environment :=
  ⟨program.macros, program.equates, search⟩

/-- An assembly of a main source with everything it went through. -/
structure AssemblyRun (search : AssetSearch) (main : SourceFile) where
  source : SourceLines
  program : Program
  steps : List Step
  layout : Layout
  labels : List Resolution
  deposits : List Deposit
  emission : Emission
  read : readSource 0 main.name main.text [] = .ok source
  built : buildProgram search main source.lines = .ok program
  laidOut : layoutProgram (program.environment search) program.actions = .ok (steps, layout)
  resolved : layout.resolveAll = .ok labels
  emitted : SecondWalk labels (Emission.initial layout) (stepEvents steps) deposits emission

/-- An assembly that succeeds went through such a run, and hands out what the run came to. -/
theorem assemble_run_eq {search : AssetSearch} {main : SourceFile} {listing : Bool}
    {assembly : Assembly} (h : assemble search main listing = .ok assembly) :
    ∃ run : AssemblyRun search main,
      assembly = ⟨run.emission.segmentCode, (run.emission.asked listing).renderListing,
        run.source.warnings ++ run.program.warnings, run.program.sources⟩ := by
  obtain ⟨source, program, emission, hread, hbuilt, hemit, rfl⟩ := assemble_eq_ok.mp h
  simp only [Program.emit, bind_eq_ok, if_true] at hemit
  obtain ⟨⟨steps, layout⟩, hlayout, labels, hlabels, hemit⟩ := hemit
  rw [emitProgram_eq_emitEvents, emitEvents_eq_ok] at hemit
  obtain ⟨deposits, hwalk⟩ := hemit
  exact ⟨⟨source, program, steps, layout, labels, deposits, emission, hread, hbuilt, hlayout,
    hlabels, hwalk⟩, rfl⟩

/-- The segments of an assembly that succeeds are those of its run. -/
theorem assemble_run {search : AssetSearch} {main : SourceFile} {listing : Bool}
    {assembly : Assembly} (h : assemble search main listing = .ok assembly) :
    ∃ run : AssemblyRun search main, assembly.segments = run.emission.segmentCode := by
  obtain ⟨run, rfl⟩ := assemble_run_eq h
  exact ⟨run, rfl⟩

/-- What the second walk through a main source ends with, if it comes to an end. -/
def emissionOf (search : AssetSearch) (main : SourceFile) : Option Emission := do
  let source ← (readSource 0 main.name main.text []).toOption
  let program ← (buildProgram search main source.lines).toOption
  (program.emit search true).toOption

/-- The program of a run is emitted as the run says. -/
theorem AssemblyRun.emit_eq_ok {search : AssetSearch} {main : SourceFile}
    (run : AssemblyRun search main) : run.program.emit search true = .ok run.emission := by
  simp only [Program.emit, bind_eq_ok, if_true]
  refine ⟨(run.steps, run.layout), run.laidOut, run.labels, run.resolved, ?_⟩
  rw [emitProgram_eq_emitEvents, emitEvents_eq_ok]
  exact ⟨run.deposits, run.emitted⟩

/-- The segments of an assembly are those of every run. -/
theorem AssemblyRun.segments_eq {search : AssetSearch} {main : SourceFile} {listing : Bool}
    {assembly : Assembly} (run : AssemblyRun search main)
    (h : assemble search main listing = .ok assembly) :
    assembly.segments = run.emission.segmentCode := by
  rw [assemble_of_emit listing run.read run.built run.emit_eq_ok, Except.ok.injEq] at h
  rw [← h]

/-- Every run through a main source ends with the same. -/
theorem AssemblyRun.emissionOf_eq {search : AssetSearch} {main : SourceFile}
    (run : AssemblyRun search main) : emissionOf search main = some run.emission := by
  simp only [emissionOf, run.read, run.built, run.emit_eq_ok, Except.toOption,
    Option.bind_eq_bind, Option.bind_some]

/-- A main source whose second walk comes to an end assembles. -/
theorem assemble_of_emissionOf {search : AssetSearch} {main : SourceFile} {emission : Emission}
    (listing : Bool) (h : emissionOf search main = some emission) :
    ∃ assembly, assemble search main listing = .ok assembly := by
  simp only [emissionOf, Option.bind_eq_bind, Option.bind_eq_some_iff, toOption_eq_some] at h
  obtain ⟨source, hread, program, hbuilt, hemit⟩ := h
  exact ⟨_, assemble_of_emit listing hread hbuilt hemit⟩

end Asm65816
