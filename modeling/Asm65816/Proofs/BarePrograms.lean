import Asm65816.Proofs.BuildViews
import Asm65816.Proofs.IncludeDepth

/-!
# Programs without places and marks

A program holds the places of its statements, and marks where the lines of included sources start.
Neither has a say in what is built. Lines that say the same build programs that are equal without
places and marks, whatever files the lines stand in.
-/

namespace Asm65816

/-- Whether an operation marks where an included source starts. -/
def Operation.isMark : Operation → Bool
  | includeSource _ => true
  | _ => false

/-! ## Leaving places and marks out -/

mutual

/-- An action without places and marks, unless it is a mark itself. -/
def Action.bare? : Action → Option Action
  | .operation operation _ =>
    if operation.isMark then none else some (.operation operation default)
  | .callMacro name operands _ => some (.callMacro name operands default)
  | .conditional arms _ => some (.conditional (bareArms arms) default)
  | .argumentLoop body _ => some (.argumentLoop (bareBody body) default)

/-- Arms without places and marks. -/
def bareArms : List ConditionalArm → List ConditionalArm
  | [] => []
  | .mk condition body _ :: rest => .mk condition (bareBody body) default :: bareArms rest

/-- A body without places and marks. -/
def bareBody : List Action → List Action
  | [] => []
  | action :: rest =>
    match action.bare? with
    | none => bareBody rest
    | some bare => bare :: bareBody rest

end

def MacroDefinition.bare (definition : MacroDefinition) : MacroDefinition :=
  { definition with body := bareBody definition.body }

def Capture.bare : Capture → Capture
  | macroBody name body _ => macroBody name (bareBody body) default
  | conditional arms condition body _ _ =>
    conditional (bareArms arms) condition (bareBody body) default default
  | argumentLoop body _ => argumentLoop (bareBody body) default

/-- What is known after some lines, without the sources and without places and marks. -/
def BuildState.bare (state : BuildState) : BuildState :=
  { state with
    sources := []
    warnings := []
    actions := bareBody state.actions
    captures := state.captures.map Capture.bare
    macros := state.macros.mapValues MacroDefinition.bare }

/-- A program without its sources and without places and marks. -/
def Program.bare (program : Program) : Program :=
  { program with
    sources := []
    warnings := []
    actions := bareBody program.actions
    macros := program.macros.mapValues MacroDefinition.bare }

theorem bareBody_eq (body : List Action) : bareBody body = body.filterMap Action.bare? := by
  induction body with
  | nil => rfl
  | cons action rest ih =>
    rw [bareBody, List.filterMap_cons, ih]
    cases action.bare? <;> rfl

theorem bareBody_append (first second : List Action) :
    bareBody (first ++ second) = bareBody first ++ bareBody second := by
  simp only [bareBody_eq, List.filterMap_append]

theorem bareArms_append (first second : List ConditionalArm) :
    bareArms (first ++ second) = bareArms first ++ bareArms second := by
  induction first with
  | nil => rfl
  | cons arm rest ih =>
    obtain ⟨condition, body, location⟩ := arm
    simp only [List.cons_append, bareArms, ih]

/-! ## Statements -/

namespace BuildState

variable (state : BuildState)

theorem bare_append (action : Action) :
    (state.append action).bare =
      match action.bare? with
      | some bare => state.bare.append bare
      | none => state.bare := by
  obtain ⟨sources, warnings, actions, captures, macros, equates, globals, labels⟩ := state
  cases captures with
  | nil => cases h : action.bare? <;> simp [append, bare, bareBody_append, bareBody, h]
  | cons capture rest =>
    cases capture <;> cases h : action.bare? <;>
      simp [append, bare, Capture.append, Capture.bare, bareBody_append, bareBody, h]

theorem bare_add (operation : Operation) (location : Location) :
    (state.add operation location).bare =
      if operation.isMark then state.bare else state.bare.add operation default := by
  rw [add, bare_append, Action.bare?]
  cases operation.isMark <;> rfl

theorem bare_enter (capture : Capture) :
    (state.enter capture).bare = state.bare.enter capture.bare := rfl

theorem bare_equates : state.bare.equates = state.equates := rfl

theorem bare_has (name : String) : state.bare.macros.has name = state.macros.has name :=
  Table.has_mapValues _ _ _

/-- Leaving places and marks out, as a view. -/
def bareView : BuildView where
  sources _ := []
  warnings _ := []
  place _ := default
  body := bareBody
  arms := bareArms
  body_nil := rfl
  body_append := bareBody_append
  body_callMacro _ _ _ := rfl
  body_conditional _ _ := rfl
  body_argumentLoop _ _ := rfl
  arms_nil := rfl
  arms_append finished _ _ _ := bareArms_append finished _

theorem declareGlobals_bare (location : Location) (position : Nat) (operands : List Expr) :
    declareGlobals default position operands state.bare =
      (declareGlobals location position operands state).map bare :=
  bareView.declareGlobals_state state location (fun _ => rfl) position operands

theorem beginMacro_bare (label : Option (Spanned String)) (variadic : Bool)
    (operands : List Expr) (location : Location) :
    state.bare.beginMacro label variadic operands default =
      (state.beginMacro label variadic operands location).map bare :=
  bareView.beginMacro_state state label variadic operands location

theorem endMacro_bare (operands : List Expr) :
    state.bare.endMacro operands = (state.endMacro operands).map bare :=
  bareView.endMacro_state state operands

theorem nextArm_bare (condition : Option Expr) (location : Location) :
    state.bare.nextArm condition default = (state.nextArm condition location).map bare :=
  bareView.nextArm_state state condition location

theorem endConditional_bare : state.bare.endConditional = state.endConditional.map bare :=
  bareView.endConditional_state state

theorem endLoop_bare : state.bare.endLoop = state.endLoop.map bare :=
  bareView.endLoop_state state

theorem defineEquate_bare (name : String) (value : Expr) :
    state.bare.defineEquate name value = (state.defineEquate name value).map bare :=
  bareView.defineEquate_state state name value

end BuildState

section Alike

variable {state other next : BuildState} (hstate : other.bare = state.bare)

include hstate

/-- What a statement does depends neither on places nor on marks. -/
theorem Effect.apply_bare (location location' : Location) (effect : Effect) :
    (effect.apply other location').map BuildState.bare =
      (effect.apply state location).map BuildState.bare := by
  cases effect with
  | add operation =>
    refine congrArg Except.ok ?_
    rw [BuildState.bare_add, BuildState.bare_add, hstate]
  | call name operands =>
    refine congrArg Except.ok ?_
    rw [BuildState.bare_append, BuildState.bare_append, hstate]
    rfl
  | declareGlobals operands =>
    simp only [apply, ← BuildState.declareGlobals_bare, hstate]
  | beginMacro label variadic operands =>
    simp only [apply, ← BuildState.beginMacro_bare, hstate]
  | endMacro operands => simp only [apply, ← BuildState.endMacro_bare, hstate]
  | openConditional condition =>
    refine congrArg Except.ok ?_
    rw [BuildState.bare_enter, BuildState.bare_enter, hstate]
    rfl
  | nextArm condition => simp only [apply, ← BuildState.nextArm_bare, hstate]
  | endConditional => simp only [apply, ← BuildState.endConditional_bare, hstate]
  | openLoop =>
    refine congrArg Except.ok ?_
    rw [BuildState.bare_enter, BuildState.bare_enter, hstate]
    rfl
  | endLoop => simp only [apply, ← BuildState.endLoop_bare, hstate]

theorem BuildState.declare_bare {location location' : Location}
    {label label' : Option (Spanned String)} {statements statements' : List Statement}
    (hlabel : label'.map Spanned.unplaced = label.map Spanned.unplaced)
    (hstatements : statements'.map Statement.unplaced = statements.map Statement.unplaced) :
    (other.declare location' label' statements').bare =
      (state.declare location label statements).bare := by
  cases label with
  | none =>
    obtain rfl := Option.map_eq_none_iff.mp hlabel
    exact hstate
  | some name =>
    obtain ⟨name', rfl, hname⟩ := Option.map_eq_some_iff.mp hlabel
    have hnode : name'.node = name.node := (Spanned.mk.inj hname).1
    simp only [BuildState.declare, definesMacro_unplaced hstatements, hnode]
    split
    · exact hstate
    · have hdeclared (state : BuildState) :
          BuildState.bare { state with labels := name.node :: state.labels } =
            { state.bare with labels := name.node :: state.bare.labels } := rfl
      rw [BuildState.bare_add, BuildState.bare_add, hdeclared, hdeclared, hstate]

end Alike

/-! ## Tasks -/

/-- What a task says, without places. -/
def BuildTask.unplaced : BuildTask → BuildTask
  | line found => line ⟨found.content, default⟩
  | statement label _ found => statement (label.map Spanned.unplaced) default found.unplaced

/-- Tasks that say the same, the second on a way through no other files than the first. -/
structure BuildTask.Follows (task task' : BuildTask) : Prop where
  content : task'.unplaced = task.unplaced
  files : task'.location.files ⊆ task.location.files

/-- Lines that say the same, in files that were reached through no others. -/
theorem follows_lineTasks {lines lines' : List Line} {files files' : List String}
    (hcontent : lines'.map Line.content = lines.map Line.content) (hsubset : files' ⊆ files)
    (hfiles : ∀ line ∈ lines, line.location.files = files)
    (hfiles' : ∀ line ∈ lines', line.location.files = files') :
    List.Forall₂ BuildTask.Follows (lineTasks lines) (lineTasks lines') := by
  induction lines generalizing lines' with
  | nil =>
    obtain rfl := List.map_eq_nil_iff.mp hcontent
    exact .nil
  | cons line others ih =>
    obtain ⟨line', others', rfl, hline, hothers⟩ := List.map_eq_cons_iff.mp hcontent
    refine .cons ⟨?_, ?_⟩ (ih hothers (fun line hline => hfiles line (List.mem_cons_of_mem _ hline))
      fun line hline => hfiles' line (List.mem_cons_of_mem _ hline))
    · simp only [BuildTask.unplaced, hline]
    · rw [BuildTask.location, BuildTask.location, hfiles line List.mem_cons_self,
        hfiles' line' List.mem_cons_self]
      exact hsubset

theorem follows_statementTasks {label label' : Option (Spanned String)}
    {location location' : Location} {statements statements' : List Statement}
    (hlabel : label'.map Spanned.unplaced = label.map Spanned.unplaced)
    (hfiles : location'.files ⊆ location.files)
    (hstatements : statements'.map Statement.unplaced = statements.map Statement.unplaced) :
    List.Forall₂ BuildTask.Follows (statementTasks label location statements)
      (statementTasks label' location' statements') := by
  induction statements generalizing statements' with
  | nil =>
    obtain rfl := List.map_eq_nil_iff.mp hstatements
    exact .nil
  | cons first others ih =>
    obtain ⟨first', others', rfl, hfirst, hothers⟩ := List.map_eq_cons_iff.mp hstatements
    refine .cons ⟨?_, hfiles⟩ (ih hothers)
    simp only [BuildTask.unplaced, hlabel, hfirst]

section Following

variable {search : AssetSearch} {state other next : BuildState}

/-- A file that is not being read on one way is not being read on a part of it, and says the same
there. -/
theorem openInclude_follows (hstate : other.bare = state.bare) {operands : List Expr}
    {location location' : Location} (hfiles : location'.files ⊆ location.files)
    {lines : List Line} (h : openInclude search operands location state = .ok (next, lines)) :
    ∃ next' lines', openInclude search operands location' other = .ok (next', lines') ∧
      next'.bare = next.bare ∧
      List.Forall₂ BuildTask.Follows (lineTasks lines) (lineTasks lines') := by
  obtain ⟨path, asset, text, read, hpath, hasset, htext, hfresh, hread, rfl, rfl⟩ :=
    openInclude_eq_ok.mp h
  obtain ⟨read', hread', hcontent⟩ := readSource_content hread other.sources.length asset.path
    (location'.includedFrom ++ [⟨location'.file, location'.line⟩])
  have hfresh' : isBeingRead location' asset.path = false := by
    rw [isBeingRead_eq_false] at hfresh ⊢
    exact fun hmem => hfresh (hfiles hmem)
  refine ⟨_, read'.lines, openInclude_eq_ok.mpr
    ⟨path, asset, text, read', hpath, hasset, htext, hfresh', hread', rfl, rfl⟩, ?_, ?_⟩
  · rw [BuildState.bare_add, BuildState.bare_add]
    exact hstate
  · have hsubset : location'.files ++ [asset.path] ⊆ location.files ++ [asset.path] :=
      List.append_subset.mpr ⟨fun _ hmem => List.mem_append_left _ (hfiles hmem),
        List.subset_append_right _ _⟩
    refine follows_lineTasks hcontent hsubset (fun line hline => ?_) fun line hline => ?_
    · obtain ⟨hfile, hfrom⟩ := readSource_location hread hline
      rw [Location.files_of_includedFrom hfrom, hfile]
    · obtain ⟨hfile, hfrom⟩ := readSource_location hread' hline
      rw [Location.files_of_includedFrom hfrom, hfile]

/-- A task that says the same does the same. -/
theorem BuildTask.Follows.advance {task task' : BuildTask} (h : task.Follows task')
    (hstate : other.bare = state.bare) {more : List BuildTask}
    (hstep : task.advance search state = .ok (next, more)) :
    ∃ next' more', task'.advance search other = .ok (next', more') ∧ next'.bare = next.bare ∧
      List.Forall₂ BuildTask.Follows more more' := by
  cases task with
  | line line =>
    cases task' with
    | statement => cases h.content
    | line line' =>
      have hcontent : line'.content = line.content :=
        congrArg Line.body (BuildTask.line.inj h.content)
      rcases Line.content_eq hcontent with
        ⟨name, name', value, hbody, hbody', hname⟩ |
          ⟨label, label', statements, statements', hbody, hbody', hlabel, hstatements⟩
      · obtain ⟨hdefined, rfl⟩ := (advance_equate hbody).mp hstep
        have hdefine : (other.defineEquate name.node value).map BuildState.bare =
            (state.defineEquate name.node value).map BuildState.bare := by
          rw [← BuildState.defineEquate_bare, ← BuildState.defineEquate_bare, hstate]
        obtain ⟨next', hnext', hsame⟩ := exists_of_map_eq hdefine hdefined
        rw [← hname] at hnext'
        exact ⟨next', [], (advance_equate hbody').mpr ⟨hnext', rfl⟩, hsame, .nil⟩
      · rw [advance_statements hbody] at hstep
        cases hstep
        exact ⟨_, _, advance_statements hbody',
          BuildState.declare_bare hstate hlabel hstatements,
          follows_statementTasks hlabel h.files hstatements⟩
  | statement label location statement =>
    cases task' with
    | line => cases h.content
    | statement label' location' statement' =>
      obtain ⟨hlabel, -, hcontent⟩ := BuildTask.statement.inj h.content
      obtain ⟨-, hincludes', -⟩ := Statement.sort_unplaced hcontent
      obtain ⟨-, hoperands, -⟩ := Statement.of_unplaced_eq hcontent
      cases hincludes : statement.includes with
      | true =>
        obtain ⟨lines, hopened, rfl⟩ := (advance_include hincludes).mp hstep
        have hfiles : (location'.narrow statement'.span).files ⊆
            (location.narrow statement.span).files := h.files
        obtain ⟨next', lines', hopened', hsame, htasks⟩ := openInclude_follows hstate hfiles hopened
        rw [← hoperands] at hopened'
        exact ⟨next', _, (advance_include (hincludes'.trans hincludes)).mpr
          ⟨lines', hopened', rfl⟩, hsame, htasks⟩
      | false =>
        obtain ⟨hbuilt, rfl⟩ := (advance_statement hincludes).mp hstep
        obtain ⟨effect, happly, -, hother⟩ := buildStatement_effect hincludes hbuilt
        obtain ⟨next', hnext', hsame⟩ := exists_of_map_eq (Effect.apply_bare hstate _
          (location'.narrow statement'.span) effect) happly
        have hequates : other.equates = state.equates := by
          rw [← BuildState.bare_equates, hstate, BuildState.bare_equates]
        have hmacros (name : String) : other.macros.has name = state.macros.has name := by
          rw [← BuildState.bare_has, hstate, BuildState.bare_has]
        exact ⟨next', [], (advance_statement (hincludes'.trans hincludes)).mpr
          ⟨hother hequates hmacros hlabel hcontent hnext', rfl⟩, hsame, .nil⟩

/-- Tasks that say the same build the same. -/
theorem BuildsTo.follow {tasks tasks' : List BuildTask} {last : BuildState}
    (hrun : BuildsTo search state tasks last []) (hstate : other.bare = state.bare)
    (htasks : List.Forall₂ BuildTask.Follows tasks tasks') :
    ∃ last', BuildsTo search other tasks' last' [] ∧ last'.bare = last.bare := by
  generalize hleft : ([] : List BuildTask) = left at hrun
  induction hrun generalizing other tasks' with
  | here state tasks =>
    subst hleft
    cases htasks
    exact ⟨other, .here _ _, hstate⟩
  | step advanced _ ih =>
    cases htasks with
    | cons htask hothers =>
      obtain ⟨next', more', hstep', hsame, hmore⟩ := htask.advance hstate advanced
      obtain ⟨last', hlast', hresult⟩ := ih hsame (List.rel_append hmore hothers) hleft
      exact ⟨last', .step hstep' hlast', hresult⟩

end Following

end Asm65816
