import Asm65816.Proofs.BarePrograms
import Asm65816.Proofs.NameTables

/-!
# Programs whose operations are changed

Statements are edited in the sources of a program so that other operations are built from them.
When each edited statement builds the changed operation and nothing else differs, the edited sources
build the program with its operations changed, but for places and marks.
-/

namespace Asm65816

/-- What is made of the operation at a location. -/
abbrev OperationChange := Location → Operation → Operation

/-- What is made of the statement at a location. -/
abbrev StatementEdit := Location → Statement → Statement

/-! ## Changing operations -/

mutual

/-- An action with its operations changed. -/
def Action.mapOperations (change : OperationChange) : Action → Action
  | .operation operation location => .operation (change location operation) location
  | .callMacro name operands location => .callMacro name operands location
  | .conditional arms location => .conditional (mapArms change arms) location
  | .argumentLoop body location => .argumentLoop (mapBody change body) location

/-- Arms with their operations changed. -/
def mapArms (change : OperationChange) : List ConditionalArm → List ConditionalArm
  | [] => []
  | .mk condition body location :: rest =>
    .mk condition (mapBody change body) location :: mapArms change rest

/-- A body with its operations changed. -/
def mapBody (change : OperationChange) : List Action → List Action
  | [] => []
  | action :: rest => action.mapOperations change :: mapBody change rest

end

section Changing

variable (change : OperationChange)

def MacroDefinition.mapOperations (definition : MacroDefinition) : MacroDefinition :=
  { definition with body := mapBody change definition.body }

def Capture.mapOperations : Capture → Capture
  | macroBody name body location => macroBody name (mapBody change body) location
  | conditional arms condition body armLocation location =>
    conditional (mapArms change arms) condition (mapBody change body) armLocation location
  | argumentLoop body location => argumentLoop (mapBody change body) location

/-- What is known after some lines, with the operations changed. -/
def BuildState.mapOperations (state : BuildState) : BuildState :=
  { state with
    actions := mapBody change state.actions
    captures := state.captures.map (Capture.mapOperations change)
    macros := state.macros.mapValues (MacroDefinition.mapOperations change) }

/-- A program with its operations changed. -/
def Program.mapOperations (program : Program) : Program :=
  { program with
    actions := mapBody change program.actions
    macros := program.macros.mapValues (MacroDefinition.mapOperations change) }

theorem mapBody_eq (body : List Action) :
    mapBody change body = body.map (Action.mapOperations change) := by
  induction body with
  | nil => rfl
  | cons action rest ih => rw [mapBody, List.map_cons, ih]

theorem mapBody_append (first second : List Action) :
    mapBody change (first ++ second) = mapBody change first ++ mapBody change second := by
  simp only [mapBody_eq, List.map_append]

theorem mapArms_append (first second : List ConditionalArm) :
    mapArms change (first ++ second) = mapArms change first ++ mapArms change second := by
  induction first with
  | nil => rfl
  | cons arm rest ih =>
    obtain ⟨condition, body, location⟩ := arm
    simp only [List.cons_append, mapArms, ih]

end Changing

/-! ## Building changed operations -/

namespace BuildState

variable (change : OperationChange) (state : BuildState)

theorem mapOperations_append (action : Action) :
    (state.append action).mapOperations change =
      (state.mapOperations change).append (action.mapOperations change) := by
  obtain ⟨sources, warnings, actions, captures, macros, equates, globals, labels⟩ := state
  cases captures with
  | nil => simp [append, mapOperations, mapBody_append, mapBody]
  | cons capture rest =>
    cases capture <;>
      simp [append, mapOperations, Capture.append, Capture.mapOperations, mapBody_append, mapBody]

theorem mapOperations_add (operation : Operation) (location : Location) :
    (state.add operation location).mapOperations change =
      (state.mapOperations change).add (change location operation) location := by
  rw [add, mapOperations_append, Action.mapOperations]
  rfl

theorem has_mapOperations (name : String) :
    (state.mapOperations change).macros.has name = state.macros.has name :=
  Table.has_mapValues _ _ _

/-- The change of operations, as a view. -/
def changeView : BuildView where
  sources := id
  warnings := id
  place := id
  body := mapBody change
  arms := mapArms change
  body_nil := rfl
  body_append := mapBody_append change
  body_callMacro _ _ _ := rfl
  body_conditional _ _ := rfl
  body_argumentLoop _ _ := rfl
  arms_nil := rfl
  arms_append finished _ _ _ := mapArms_append change finished _

theorem declareGlobals_mapOperations
    (hglobal : ∀ location name, change location (.setGlobal name) = .setGlobal name)
    (location : Location) (position : Nat) (operands : List Expr) :
    declareGlobals location position operands (state.mapOperations change) =
      (declareGlobals location position operands state).map (mapOperations change) :=
  (changeView change).declareGlobals_state state location
    (fun name => congrArg (fun changed => [Action.operation changed location])
      (hglobal location name)) position operands

theorem beginMacro_mapOperations (label : Option (Spanned String)) (variadic : Bool)
    (operands : List Expr) (location : Location) :
    (state.mapOperations change).beginMacro label variadic operands location =
      (state.beginMacro label variadic operands location).map (mapOperations change) :=
  (changeView change).beginMacro_state state label variadic operands location

theorem endMacro_mapOperations (operands : List Expr) :
    (state.mapOperations change).endMacro operands =
      (state.endMacro operands).map (mapOperations change) :=
  (changeView change).endMacro_state state operands

theorem nextArm_mapOperations (condition : Option Expr) (location : Location) :
    (state.mapOperations change).nextArm condition location =
      (state.nextArm condition location).map (mapOperations change) :=
  (changeView change).nextArm_state state condition location

theorem endConditional_mapOperations :
    (state.mapOperations change).endConditional =
      state.endConditional.map (mapOperations change) :=
  (changeView change).endConditional_state state

theorem endLoop_mapOperations :
    (state.mapOperations change).endLoop = state.endLoop.map (mapOperations change) :=
  (changeView change).endLoop_state state

theorem defineEquate_mapOperations (name : String) (value : Expr) :
    (state.mapOperations change).defineEquate name value =
      (state.defineEquate name value).map (mapOperations change) :=
  (changeView change).defineEquate_state state name value

theorem declare_mapOperations
    (hlabel : ∀ location name, change location (.declareLabel name) = .declareLabel name)
    (location : Location) (label : Option (Spanned String))
    {statements statements' : List Statement}
    (hcalls : (statements'.head?.elim false fun first => first.isNamed ".MACRO") =
      statements.head?.elim false fun first => first.isNamed ".MACRO") :
    (state.mapOperations change).declare location label statements' =
      (state.declare location label statements).mapOperations change := by
  cases label with
  | none => rfl
  | some label =>
    simp only [declare, hcalls]
    split
    · rfl
    · rw [mapOperations_add, hlabel]
      rfl

/-- No macro has the name of a word of the language, in any letter case. -/
structure SparesWords : Prop where
  reserved : ∀ name, state.macros.has name = true → ∀ word ∈ reservedNames,
    sameLetters word name = false
  mnemonics : ∀ name, state.macros.has name = true → ∀ entry ∈ Opcode.table,
    sameLetters entry.mnemonic name = false

variable {state} {next : BuildState}

theorem Defines.sparesWords (h : state.Defines next) (hspares : state.SparesWords) :
    next.SparesWords := by
  cases h with
  | nothing equates macros =>
    exact ⟨fun name hname => hspares.reserved name (macros name ▸ hname),
      fun name hname => hspares.mnemonics name (macros name ▸ hname)⟩
  | equate defined number free equates macros =>
    exact ⟨fun name hname => hspares.reserved name (macros ▸ hname),
      fun name hname => hspares.mnemonics name (macros ▸ hname)⟩
  | macroName defined definition free equates macros =>
    have hold {name : String} (hname : next.macros.has name = true) :
        defined = name ∨ state.macros.has name = true := by
      rw [macros, Table.has, Table.get?_put] at hname
      split at hname
      · exact .inl ‹_›
      · exact .inr hname
    constructor
    · intro name hname
      rcases hold hname with rfl | hdefined
      · exact free.notReserved
      · exact hspares.reserved name hdefined
    · intro name hname
      rcases hold hname with rfl | hdefined
      · exact free.notMnemonic
      · exact hspares.mnemonics name hdefined

end BuildState

/-! ## Editing statements -/

def LineBody.edited (edit : StatementEdit) (location : Location) : LineBody → LineBody
  | equate name value => equate name value
  | statements label row =>
    statements label (row.map fun statement => edit (location.narrow statement.span) statement)

/-- A line with its statements edited. -/
def Line.edited (edit : StatementEdit) (line : Line) : Line :=
  { line with body := line.body.edited edit line.location }

def BuildTask.edited (edit : StatementEdit) : BuildTask → BuildTask
  | line found => line (found.edited edit)
  | statement label location found =>
    statement label location (edit (location.narrow found.span) found)

/-- Whether the task includes a file. -/
def BuildTask.includes : BuildTask → Bool
  | line _ => false
  | statement _ _ found => found.includes

/-- An edit after which every statement builds the changed operation, and otherwise what it built
before. -/
structure StatementEdit.Builds (edit : StatementEdit) (change : OperationChange) : Prop where
  label : ∀ location name, change location (.declareLabel name) = .declareLabel name
  mark : ∀ location path, change location (.includeSource path) = .includeSource path
  span : ∀ location statement, (edit location statement).span = statement.span
  macros : ∀ location statement,
    (edit location statement).isNamed ".MACRO" = statement.isNamed ".MACRO"
  includes : ∀ location statement, (edit location statement).includes = statement.includes
  files : ∀ location statement, statement.includes = true →
    (edit location statement).operands = statement.operands
  statements : ∀ {search : AssetSearch} {label : Option (Spanned String)} {location : Location}
    {statement : Statement} {state next : BuildState}, statement.includes = false →
      state.SparesWords → buildStatement search none label location state statement = .ok next →
        buildStatement search none label location (state.mapOperations change)
          (edit (location.narrow statement.span) statement) = .ok (next.mapOperations change)

/-- The second text of a source reads as the first one with its statements edited. -/
def ReadsEdited (edit : StatementEdit) (source : Nat) (file : String)
    (includedFrom : List IncludeSite) (text text' : String) : Prop :=
  ∀ read, readSource source file text includedFrom = .ok read →
    ∃ read', readSource source file text' includedFrom = .ok read' ∧
      read'.lines.map Line.content = read.lines.map fun line => (line.edited edit).content

/-- The files that a program can include, and the same with their statements edited. -/
structure AssetSearch.Edits (edit : StatementEdit) (search search' : AssetSearch) : Prop where
  directories : search'.directories = search.directories
  store : search.store.Changes (fun path text text' =>
    ∀ source includedFrom, ReadsEdited edit source path includedFrom text text') search'.store

/-- A main source with the files that it can include, and the same with their statements edited. -/
structure Edits (edit : StatementEdit) (search : AssetSearch) (main : SourceFile)
    (search' : AssetSearch) (main' : SourceFile) : Prop where
  name : main'.name = main.name
  main : ReadsEdited edit 0 main.name [] main.text main'.text
  files : search.Edits edit search'

section Editing

variable {edit : StatementEdit} {change : OperationChange} {search search' : AssetSearch}
  {state other next : BuildState}

/-- What a task says after its statements are edited, the second task says on a way through no
other files. -/
def BuildTask.EditedTo (edit : StatementEdit) (task task' : BuildTask) : Prop :=
  (task.edited edit).Follows task'

theorem BuildTask.forall₂_editedTo {tasks tasks' : List BuildTask} :
    List.Forall₂ (BuildTask.EditedTo edit) tasks tasks' ↔
      List.Forall₂ BuildTask.Follows (tasks.map (BuildTask.edited edit)) tasks' := by
  rw [List.forall₂_map_left_iff]
  rfl

theorem lineTasks_edited (lines : List Line) :
    (lineTasks lines).map (BuildTask.edited edit) = lineTasks (lines.map (Line.edited edit)) := by
  simp only [lineTasks, List.map_map]
  rfl

/-- An edited task that includes nothing builds the changed operations. -/
theorem StatementEdit.Builds.advance (h : edit.Builds change) (hspares : state.SparesWords)
    {task : BuildTask} {more : List BuildTask} (hplain : task.includes = false)
    (hstep : task.advance search state = .ok (next, more)) :
    (task.edited edit).advance search (state.mapOperations change) =
      .ok (next.mapOperations change, more.map (BuildTask.edited edit)) := by
  cases task with
  | line line =>
    obtain ⟨body, location⟩ := line
    cases body with
    | equate name value =>
      obtain ⟨hdefined, rfl⟩ := (advance_equate rfl).mp hstep
      refine (advance_equate rfl).mpr ⟨?_, rfl⟩
      rw [BuildState.defineEquate_mapOperations, hdefined]
      rfl
    | statements label row =>
      rw [advance_statements rfl] at hstep
      cases hstep
      refine (advance_statements rfl).trans ?_
      have hcalls : ((row.map fun statement =>
            edit (location.narrow statement.span) statement).head?.elim false
              fun first => first.isNamed ".MACRO") =
          row.head?.elim false fun first => first.isNamed ".MACRO" := by
        cases row with
        | nil => rfl
        | cons first rest => exact h.macros _ _
      rw [BuildState.declare_mapOperations _ _ h.label _ _ hcalls]
      refine congrArg (fun more => Except.ok (_, more)) ?_
      simp only [statementTasks, List.map_map]
      rfl
  | statement label location statement =>
    obtain ⟨hbuilt, rfl⟩ := (advance_statement hplain).mp hstep
    exact (advance_statement ((h.includes _ _).trans hplain)).mpr
      ⟨h.statements hplain hspares hbuilt, rfl⟩

/-- Only includes search for files. -/
theorem BuildTask.advance_search {task : BuildTask} {more : List BuildTask}
    (hplain : task.includes = false) (hstep : task.advance search state = .ok (next, more)) :
    task.advance search' state = .ok (next, more) := by
  cases task with
  | line line => exact hstep
  | statement label location statement =>
    obtain ⟨hbuilt, rfl⟩ := (advance_statement hplain).mp hstep
    exact (advance_statement hplain).mpr
      ⟨(buildStatement_eq_ok hplain).mpr ((buildStatement_eq_ok hplain).mp hbuilt), rfl⟩

/-- An included file is found where it was, and its lines are edited. -/
theorem StatementEdit.Builds.openInclude (h : edit.Builds change)
    (hsearch : search.Edits edit search')
    (hstate : other.bare = (state.mapOperations change).bare) {operands : List Expr}
    {location location' : Location} (hfiles : location'.files ⊆ location.files)
    {lines : List Line} (hstep : openInclude search operands location state = .ok (next, lines)) :
    ∃ next' lines', openInclude search' operands location' other = .ok (next', lines') ∧
      next'.bare = (next.mapOperations change).bare ∧
      List.Forall₂ (BuildTask.EditedTo edit) (lineTasks lines) (lineTasks lines') := by
  obtain ⟨path, asset, text, read, hpath, hasset, htext, hfresh, hread, rfl, rfl⟩ :=
    openInclude_eq_ok.mp hstep
  obtain ⟨asset', text', hasset', hsame, htext', hedited⟩ :=
    locate_changes hsearch.store hasset htext
  obtain ⟨edited, hreads, hlines⟩ := hedited _ _ read hread
  obtain ⟨read', hread', hcontent⟩ := readSource_content hreads other.sources.length asset'.path
    (location'.includedFrom ++ [⟨location'.file, location'.line⟩])
  have hfresh' : isBeingRead location' asset'.path = false := by
    rw [isBeingRead_eq_false] at hfresh ⊢
    rw [hsame]
    exact fun hmem => hfresh (hfiles hmem)
  rw [← hsearch.directories] at hasset'
  refine ⟨_, read'.lines, openInclude_eq_ok.mpr
    ⟨path, asset', text', read', hpath, hasset', htext', hfresh', hread', rfl, rfl⟩, ?_, ?_⟩
  · rw [BuildState.bare_add, BuildState.mapOperations_add, h.mark, BuildState.bare_add]
    exact hstate
  · have hsubset : location'.files ++ [asset.path] ⊆ location.files ++ [asset.path] :=
      List.append_subset.mpr ⟨fun _ hmem => List.mem_append_left _ (hfiles hmem),
        List.subset_append_right _ _⟩
    rw [BuildTask.forall₂_editedTo, lineTasks_edited]
    refine follows_lineTasks ?_ hsubset (fun line hline => ?_) fun line hline => ?_
    · rw [hcontent, hlines, List.map_map]
      rfl
    · obtain ⟨given, hgiven, rfl⟩ := List.mem_map.mp hline
      obtain ⟨hfile, hfrom⟩ := readSource_location hread hgiven
      change given.location.files = _
      rw [Location.files_of_includedFrom hfrom, hfile]
    · obtain ⟨hfile, hfrom⟩ := readSource_location hread' hline
      rw [Location.files_of_includedFrom hfrom, hfile, hsame]

/-- An edited task builds the changed operations. -/
theorem StatementEdit.Builds.follow (h : edit.Builds change) (hsearch : search.Edits edit search')
    (hspares : state.SparesWords) (hstate : other.bare = (state.mapOperations change).bare)
    {task task' : BuildTask} (htask : task.EditedTo edit task') {more : List BuildTask}
    (hstep : task.advance search state = .ok (next, more)) :
    ∃ next' more', task'.advance search' other = .ok (next', more') ∧
      next'.bare = (next.mapOperations change).bare ∧
      List.Forall₂ (BuildTask.EditedTo edit) more more' := by
  cases hincludes : task.includes with
  | false =>
    have hedited := h.advance hspares hincludes hstep
    obtain ⟨next', more', hstep', hsame, hmore⟩ :=
      BuildTask.Follows.advance htask hstate hedited
    refine ⟨next', more', BuildTask.advance_search ?_ hstep', hsame,
      BuildTask.forall₂_editedTo.mpr hmore⟩
    cases task with
    | line line =>
      cases task' with
      | line => rfl
      | statement => cases htask.content
    | statement label location statement =>
      cases task' with
      | line => rfl
      | statement label' location' statement' =>
        obtain ⟨-, -, hcontent⟩ := BuildTask.statement.inj htask.content
        exact ((Statement.sort_unplaced hcontent).2.1.trans (h.includes _ _)).trans hincludes
  | true =>
    cases task with
    | line => cases hincludes
    | statement label location statement =>
      cases task' with
      | line => cases htask.content
      | statement label' location' statement' =>
        obtain ⟨-, -, hcontent⟩ := BuildTask.statement.inj htask.content
        obtain ⟨-, hincludes', -⟩ := Statement.sort_unplaced hcontent
        obtain ⟨-, hoperands, -⟩ := Statement.of_unplaced_eq hcontent
        obtain ⟨lines, hopened, rfl⟩ := (advance_include hincludes).mp hstep
        have hfiles : (location'.narrow statement'.span).files ⊆
            (location.narrow statement.span).files := htask.files
        obtain ⟨next', lines', hopened', hsame, htasks⟩ :=
          h.openInclude hsearch hstate hfiles hopened
        rw [h.files _ _ hincludes] at hoperands
        rw [← hoperands] at hopened'
        have hsort := (hincludes'.trans (h.includes _ _)).trans hincludes
        exact ⟨next', _, (advance_include hsort).mpr ⟨lines', hopened', rfl⟩, hsame, htasks⟩

/-- Edited tasks build the changed operations one after the other. -/
theorem StatementEdit.Builds.run (h : edit.Builds change) (hsearch : search.Edits edit search')
    {tasks tasks' : List BuildTask} {last : BuildState}
    (hrun : BuildsTo search state tasks last []) (hspares : state.SparesWords)
    (hstate : other.bare = (state.mapOperations change).bare)
    (htasks : List.Forall₂ (BuildTask.EditedTo edit) tasks tasks') :
    ∃ last', BuildsTo search' other tasks' last' [] ∧
      last'.bare = (last.mapOperations change).bare := by
  generalize hleft : ([] : List BuildTask) = left at hrun
  induction hrun generalizing other tasks' with
  | here state tasks =>
    subst hleft
    cases htasks
    exact ⟨other, .here _ _, hstate⟩
  | step advanced _ ih =>
    cases htasks with
    | cons htask hothers =>
      obtain ⟨next', more', hstep', hsame, hmore⟩ :=
        h.follow hsearch hspares hstate htask advanced
      obtain ⟨last', hlast', hresult⟩ :=
        ih ((BuildTask.advance_defines advanced).sparesWords hspares) hsame
          (List.rel_append hmore hothers) hleft
      exact ⟨last', .step hstep' hlast', hresult⟩

/-- Edited sources build the program with its operations changed, but for places and marks. -/
theorem buildProgram_edited (h : edit.Builds change) {main main' : SourceFile}
    (hedits : Edits edit search main search' main') {read : SourceLines}
    (hread : readSource 0 main.name main.text [] = .ok read) {program : Program}
    (hbuilt : buildProgram search main read.lines = .ok program) :
    ∃ read' program', readSource 0 main'.name main'.text [] = .ok read' ∧
      buildProgram search' main' read'.lines = .ok program' ∧
      program'.bare = (program.mapOperations change).bare := by
  obtain ⟨last, hlast, hclosed⟩ := bind_eq_ok.mp hbuilt
  obtain ⟨read', hread', hlines⟩ := hedits.main read hread
  rw [← hedits.name] at hread'
  have hrun := buildLines_followed search _ _ _ _ hlast
  have htasks : List.Forall₂ (BuildTask.EditedTo edit) (lineTasks read.lines)
      (lineTasks read'.lines) := by
    rw [BuildTask.forall₂_editedTo, lineTasks_edited]
    refine follows_lineTasks ?_ (List.Subset.refl [main.name]) (fun line hline => ?_)
      fun line hline => ?_
    · rw [hlines, List.map_map]
      rfl
    · obtain ⟨given, hgiven, rfl⟩ := List.mem_map.mp hline
      obtain ⟨hfile, hfrom⟩ := readSource_location hread hgiven
      change given.location.files = _
      rw [Location.files, hfrom, hfile]
      rfl
    · obtain ⟨hfile, hfrom⟩ := readSource_location hread' hline
      rw [Location.files, hfrom, hfile, hedits.name]
      rfl
  have hspares : (BuildState.initial [main]).SparesWords :=
    ⟨fun name hname => (by cases hname), fun name hname => (by cases hname)⟩
  have hstate : (BuildState.initial [main']).bare =
      ((BuildState.initial [main]).mapOperations change).bare := rfl
  obtain ⟨last', hlast', hsame⟩ :=
    h.run hedits.files hrun hspares hstate htasks
  split at hclosed
  case h_1 => cases BuildState.run_eq_ok.mp hclosed
  case h_2 hstack =>
    cases hclosed
    have hcaptures : last'.captures = [] := by
      have hmapped := congrArg BuildState.captures hsame
      simpa [BuildState.bare, BuildState.mapOperations, hstack] using hmapped
    refine ⟨read', _, hread', buildProgram_of_buildsTo hread' hlast' hcaptures, ?_⟩
    have hparts := BuildState.mk.inj hsame
    simp only [Program.bare, Program.mapOperations]
    obtain ⟨-, -, hactions, -, hmacros, hequates, -, -⟩ := hparts
    congr 1

end Editing

/-! ## Checking an edit -/

deriving instance DecidableEq for Spanned
deriving instance DecidableEq for Statement
deriving instance DecidableEq for LineBody

/-- A text whose lines are those of another one, edited. -/
theorem readsEdited_of_eq {edit : StatementEdit} {source : Nat} {file text text' : String}
    {includedFrom : List IncludeSite}
    (h : (readSource source file text' includedFrom).toOption.map
        (fun read => read.lines.map Line.content) =
      (readSource source file text includedFrom).toOption.map
        fun read => read.lines.map fun line => (line.edited edit).content) :
    ReadsEdited edit source file includedFrom text text' := by
  intro read hread
  rw [toOption_eq_some.mpr hread, Option.map_some, Option.map_eq_some_iff] at h
  obtain ⟨read', hread', hlines⟩ := h
  exact ⟨read', toOption_eq_some.mp hread', hlines⟩

end Asm65816
