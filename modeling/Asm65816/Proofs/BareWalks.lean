import Asm65816.Proofs.BarePrograms

/-!
# Walks without places and marks

Programs that are equal without places and marks are walked through alike. The first walk takes the
same steps in both, except that it passes over marks, which leave the layout as it is, and so does
the second one. Both programs emit the same segments.
-/

namespace Asm65816

/-- An environment whose macros have no places and marks. -/
def Environment.bare (environment : Environment) : Environment :=
  { environment with macros := environment.macros.mapValues MacroDefinition.bare }

/-- What a task does, if it does anything, without its place. -/
def Task.bare? : Task → Option Task
  | .action calls found => found.bare?.map (Task.action calls)
  | .leave _ => some (.leave default)

theorem bodyTasks_bare (calls : List MacroCall) (body : List Action) :
    (bodyTasks calls body).filterMap Task.bare? = bodyTasks calls (bareBody body) := by
  rw [bodyTasks, bodyTasks, bareBody_eq, List.filterMap_map, List.map_filterMap]
  rfl

theorem expansion_bare (calls : List MacroCall) (body : List Action) (location : Location) :
    (bodyTasks calls body ++ [Task.leave location]).filterMap Task.bare? =
      bodyTasks calls (bareBody body) ++ [.leave default] := by
  rw [List.filterMap_append, bodyTasks_bare]
  rfl

theorem roundTasks_bare (call : MacroCall) (outer : List MacroCall) (rounds : List (Expr × Nat))
    (body : List Action) :
    (roundTasks call outer rounds body).filterMap Task.bare? =
      roundTasks call outer rounds (bareBody body) := by
  rw [roundTasks, roundTasks, List.filterMap_flatMap]
  simp only [bodyTasks_bare]

/-! ## The first walk -/

section Walking

variable (environment : Environment)

theorem sameNames_bare : environment.SameNames environment.bare :=
  ⟨fun name => Table.has_mapValues _ _ name, rfl⟩

theorem openCall_bare (calls : List MacroCall) (name : String) (operands : List Expr) :
    openCall environment.bare calls name operands =
      (openCall environment calls name operands).map fun opened =>
        (opened.1, bareBody opened.2) := by
  have hmacros : environment.bare.macros.get? name =
      (environment.macros.get? name).map MacroDefinition.bare := Table.get?_mapValues _ _ _
  unfold openCall
  rw [hmacros]
  cases environment.macros.get? name with
  | none => rfl
  | some definition =>
    simp only [Option.map_some, MacroDefinition.bare]
    split
    · rfl
    · split
      · rfl
      · rw [map_bind]
        rfl

theorem chosenBody_bare (calls : List MacroCall) (address : Int) (arms : List ConditionalArm) :
    (chosenBody environment.bare calls address (bareArms arms)).toOption =
      (chosenBody environment calls address arms).toOption.map bareBody := by
  induction arms with
  | nil => rfl
  | cons arm rest ih =>
    obtain ⟨condition, body, location⟩ := arm
    simp only [bareArms, chosenBody, toOption_bind, toOption_failingAt,
      (sameNames_bare environment).conditionHolds_eq, Option.map_bind]
    refine congrArg _ (funext fun holds => ?_)
    cases holds with
    | true => rfl
    | false => exact ih

/-- What the first part of a task does depends neither on places nor on marks. -/
theorem advance_bare {task bare : Task} (h : task.bare? = some bare) (layout : Layout) :
    (bare.advance environment.bare layout.unplaced).toOption =
      (task.advance environment layout).toOption.map fun step =>
        (step.1.unplaced, step.2.1.unplaced, step.2.2.filterMap Task.bare?) := by
  cases task with
  | leave location =>
    cases h
    rfl
  | action calls action =>
    cases action with
    | operation operation location =>
      simp only [Task.bare?, Action.bare?] at h
      split at h
      case isTrue => cases h
      case isFalse =>
        cases h
        simp only [Task.advance, toOption_bind, toOption_failingAt,
          (sameNames_bare environment).placeOperation_eq _ _ _ _ fun _ _ => rfl,
          placeOperation_unplaced environment calls location, toOption_map, Option.map_bind,
          Option.bind_map]
        refine congrArg _ (funext fun placed => ?_)
        simp only [Function.comp_apply, Layout.occupy_unplaced, toOption_map, Option.bind_map,
          Option.map_bind]
        rfl
    | callMacro name operands location =>
      cases h
      simp only [Task.advance, toOption_bind, toOption_failingAt, openCall_bare, toOption_map,
        Option.map_bind, Option.bind_map]
      refine congrArg _ (funext fun opened => congrArg some ?_)
      dsimp only
      rw [expansion_bare]
      rfl
    | conditional arms location =>
      cases h
      simp only [Task.advance, toOption_bind, Layout.unplaced_address, chosenBody_bare,
        Option.map_bind, Option.bind_map]
      refine congrArg _ (funext fun body => congrArg some ?_)
      dsimp only
      rw [expansion_bare]
      rfl
    | argumentLoop body location =>
      cases h
      cases calls with
      | nil => rfl
      | cons call outer =>
        refine congrArg some ?_
        dsimp only
        rw [List.filterMap_append, roundTasks_bare]
        rfl

/-- A mark leaves the layout as it is and nothing to be done. -/
theorem advance_mark {task : Task} (h : task.bare? = none) (layout : Layout) :
    ∃ event, task.advance environment layout = .ok (event, layout, []) ∧ event.bare? = none := by
  cases task with
  | leave location => cases h
  | action calls action =>
    cases action with
    | operation operation location =>
      cases operation with
      | includeSource path => exact ⟨_, rfl, rfl⟩
      | _ => cases h
    | callMacro | conditional | argumentLoop => cases h

end Walking

section Walks

variable {environment other : Environment} {layout layout' last : Layout} {tasks tasks' : List Task}
  {trace : List (Layout × Event)}

/-- The first walk passes over marks. -/
theorem FirstWalk.after_marks {marks : List Task} (hmarks : ∀ task ∈ marks, task.bare? = none)
    (walk : FirstWalk environment layout tasks trace last) :
    ∃ trace', FirstWalk environment layout (marks ++ tasks) trace' last ∧
      (trace'.map Prod.snd).filterMap Event.bare? = (trace.map Prod.snd).filterMap Event.bare? := by
  induction marks with
  | nil => exact ⟨trace, walk, rfl⟩
  | cons mark rest ih =>
    obtain ⟨trace', walk', hsame⟩ := ih fun task htask => hmarks task (List.mem_cons_of_mem _ htask)
    obtain ⟨event, hadvanced, hevent⟩ :=
      advance_mark environment (hmarks mark List.mem_cons_self) layout
    refine ⟨(layout, event) :: trace', .step hadvanced walk', ?_⟩
    rw [List.map_cons, List.filterMap_cons_none hevent, hsame]

/-- Tasks that are equal without places and marks are done alike. -/
theorem Task.advance_alike (henvironment : other.bare = environment.bare) {task task' bare : Task}
    (htask : task.bare? = some bare) (htask' : task'.bare? = some bare)
    (hlayout : layout'.unplaced = layout.unplaced) {event : Event} {next : Layout}
    {more : List Task} (hstep : task.advance environment layout = .ok (event, next, more)) :
    ∃ event' next' more', task'.advance other layout' = .ok (event', next', more') ∧
      event'.unplaced = event.unplaced ∧ next'.unplaced = next.unplaced ∧
      more'.filterMap Task.bare? = more.filterMap Task.bare? := by
  have hadvance := advance_bare environment htask layout
  rw [← henvironment, ← hlayout, advance_bare other htask' layout', hstep] at hadvance
  obtain ⟨⟨event', next', more'⟩, hstep', hview⟩ := Option.map_eq_some_iff.mp hadvance
  obtain ⟨hevent, hnext, hmore⟩ := by simpa only [Prod.mk.injEq] using hview
  exact ⟨event', next', more', toOption_eq_some.mp hstep', hevent, hnext, hmore⟩

/-- The first walk through tasks that are equal without places and marks comes across the same
events, but for both. -/
theorem FirstWalk.alike (walk : FirstWalk environment layout tasks trace last)
    (henvironment : other.bare = environment.bare)
    (htasks : tasks'.filterMap Task.bare? = tasks.filterMap Task.bare?)
    (hlayout : layout'.unplaced = layout.unplaced) :
    ∃ trace' last', FirstWalk other layout' tasks' trace' last' ∧
      last'.unplaced = last.unplaced ∧
      (trace'.map Prod.snd).filterMap Event.bare? = (trace.map Prod.snd).filterMap Event.bare? := by
  induction walk generalizing layout' tasks' with
  | done layout =>
    have hmarks := List.filterMap_eq_nil_iff.mp htasks
    obtain ⟨trace', walk', hsame⟩ := (FirstWalk.done layout').after_marks hmarks
    rw [List.append_nil] at walk'
    exact ⟨trace', layout', walk', hlayout, hsame⟩
  | @step layout next last task more tasks event trace advanced _ ih =>
    cases hbare : task.bare? with
    | none =>
      obtain ⟨mark, hmark, hevent⟩ := advance_mark environment hbare layout
      cases hmark.symm.trans advanced
      rw [List.filterMap_cons_none hbare] at htasks
      obtain ⟨trace', last', walk', hlast, hsame⟩ := ih htasks hlayout
      refine ⟨trace', last', walk', hlast, hsame.trans ?_⟩
      rw [List.map_cons, List.filterMap_cons_none hevent]
    | some bare =>
      rw [List.filterMap_cons_some hbare] at htasks
      obtain ⟨marks, task', others, rfl, hmarks, hbare', hothers⟩ :=
        List.filterMap_eq_cons_iff.mp htasks
      obtain ⟨event', next', more', hstep', hevent, hnext, hmore⟩ :=
        Task.advance_alike henvironment hbare hbare' hlayout advanced
      have hrest : (more' ++ others).filterMap Task.bare? =
          (more ++ tasks).filterMap Task.bare? := by
        rw [List.filterMap_append, List.filterMap_append, hmore, hothers]
      obtain ⟨trace', last', walk', hlast, hsame⟩ := ih hrest hnext
      obtain ⟨longer, hlonger, hevents⟩ := (FirstWalk.step hstep' walk').after_marks hmarks
      refine ⟨longer, last', hlonger, hlast, hevents.trans ?_⟩
      rw [List.map_cons, List.map_cons, List.filterMap_cons, List.filterMap_cons, hsame,
        Event.bare?_eq_of_unplaced hevent]

end Walks

/-- Programs that are equal without places and marks emit the same segments. -/
theorem Program.emit_bare {program other : Program} (h : other.bare = program.bare)
    {search : AssetSearch} {emission : Emission}
    (hemit : program.emit search true = .ok emission) :
    ∃ emission', other.emit search true = .ok emission' ∧
      emission'.segmentCode = emission.segmentCode := by
  refine Program.emit_of_firstWalk hemit fun walk => ?_
  have henvironment : (other.environment search).bare = (program.environment search).bare := by
    have hbare (program : Program) : (program.environment search).bare =
        ⟨program.bare.macros, program.bare.equates, search⟩ := rfl
    rw [hbare, hbare, h]
  have htasks : (bodyTasks [] other.actions).filterMap Task.bare? =
      (bodyTasks [] program.actions).filterMap Task.bare? := by
    have hactions : bareBody other.actions = bareBody program.actions :=
      congrArg Program.actions h
    rw [bodyTasks_bare, bodyTasks_bare, hactions]
  exact walk.alike henvironment htasks rfl

end Asm65816
