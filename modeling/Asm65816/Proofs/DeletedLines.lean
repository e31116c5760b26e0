import Asm65816.Proofs.IncludeDepth
import Asm65816.Proofs.TrimmedPrograms

/-!
# Deleting lines of dead arms

Lines may be deleted from the main source of a program and from the files that it includes. When
they all stand in dead arms, blocks are deleted as a whole, and none of the lines defines an equate,
then the rest is built, and it is what is left of the program.
-/

namespace Asm65816

/-! ## Sources that are left -/

/-- What is left of the files of a store, each under its path. -/
structure AssetStore.Leaves (gone : Deletion) (store rest : AssetStore) : Prop where
  unreadable : ∀ path fault, store.read path = .error fault → rest.read path = .error fault
  readable : ∀ path bytes, store.read path = .ok bytes →
    ∃ bytes', rest.read path = .ok bytes' ∧
      ∀ text, textOfBytes? bytes = some text →
        ∃ text', textOfBytes? bytes' = some text' ∧ LeavesText (gone path) text text'

/-- What is left of a main source and of the files that it can include. -/
structure Leaves (gone : Deletion) (search : AssetSearch) (main : SourceFile)
    (search' : AssetSearch) (main' : SourceFile) : Prop where
  name : main'.name = main.name
  main : LeavesText (gone main.name) main.text main'.text
  directories : search'.directories = search.directories
  store : search.store.Leaves gone search'.store

/-- Whether the task ends the innermost block or one of its arms. -/
def BuildTask.closesBlock : BuildTask → Bool
  | line _ => false
  | statement _ _ found => found.closesBlock

/-- Whether the task is a line that defines an equate. -/
def BuildTask.definesEquate : BuildTask → Bool
  | line ⟨.equate _ _, _⟩ => true
  | _ => false

/-- Lines may be deleted as far as a task that the builder has come to is concerned. -/
structure MayDelete (gone : Deletion) (dead : Location → Prop) (state : BuildState)
    (task : BuildTask) : Prop where
  /-- A deleted line stands in a dead arm. -/
  inside : task.location.isDeleted gone = true → InDeadArm gone dead state.captures
  /-- What ends a block or an arm is deleted exactly when what opened the block is. -/
  nested : task.closesBlock = true → ∀ capture ∈ state.captures.head?,
    capture.location.isDeleted gone = task.location.isDeleted gone
  /-- A deleted line defines no equate. -/
  valueless : task.location.isDeleted gone = true → task.definesEquate = false

/-- All deleted lines that the builder comes to from a state on stand in dead arms, with whole
blocks, and define no equates. -/
def DeletesDead (gone : Deletion) (dead : Location → Prop) (search : AssetSearch)
    (state : BuildState) (tasks : List BuildTask) : Prop :=
  ∀ found task left, BuildsTo search state tasks found (task :: left) →
    MayDelete gone dead found task

/-! ## Tasks that are left -/

/-- Tasks that say the same, on the same way through the files. -/
inductive BuildTask.Same : BuildTask → BuildTask → Prop where
  | line {first second : Line} (content : second.content = first.content)
      (files : second.location.files = first.location.files) : Same (.line first) (.line second)
  | statement {label label' : Option (Spanned String)} {location location' : Location}
      {first second : Statement}
      (label_eq : label'.map Spanned.unplaced = label.map Spanned.unplaced)
      (files : location'.files = location.files) (content : second.unplaced = first.unplaced) :
      Same (.statement label location first) (.statement label' location' second)

/-- Tasks and those that are left of them. -/
inductive TasksTrim (gone : Deletion) : List BuildTask → List BuildTask → Prop where
  | nil : TasksTrim gone [] []
  | kept {task task' : BuildTask} {tasks tasks' : List BuildTask}
      (hkept : task.location.isDeleted gone = false) (same : task.Same task')
      (rest : TasksTrim gone tasks tasks') : TasksTrim gone (task :: tasks) (task' :: tasks')
  | deleted {task : BuildTask} {tasks tasks' : List BuildTask}
      (hdeleted : task.location.isDeleted gone = true) (rest : TasksTrim gone tasks tasks') :
      TasksTrim gone (task :: tasks) tasks'

section Deleting

variable {gone : Deletion} {dead : Location → Prop} {search search' : AssetSearch}
  {state rest next : BuildState}

namespace TasksTrim

theorem append {tasks tasks' more more' : List BuildTask} (hmore : TasksTrim gone more more')
    (h : TasksTrim gone tasks tasks') : TasksTrim gone (more ++ tasks) (more' ++ tasks') := by
  induction hmore with
  | nil => exact h
  | kept hkept same _ ih => exact .kept hkept same ih
  | deleted hdeleted _ ih => exact .deleted hdeleted ih

theorem of_deleted {tasks : List BuildTask}
    (h : ∀ task ∈ tasks, task.location.isDeleted gone = true) : TasksTrim gone tasks [] := by
  induction tasks with
  | nil => exact .nil
  | cons task others ih =>
    exact .deleted (h task List.mem_cons_self)
      (ih fun task htask => h task (List.mem_cons_of_mem _ htask))

/-- Lines of a source, and those that are left of them. -/
theorem of_lines {lines lines' : List Line} (files : List String)
    (h : lines'.map Line.content =
      (lines.filter fun line => !line.location.isDeleted gone).map Line.content)
    (hfiles : ∀ line ∈ lines, line.location.files = files)
    (hfiles' : ∀ line ∈ lines', line.location.files = files) :
    TasksTrim gone (lineTasks lines) (lineTasks lines') := by
  induction lines generalizing lines' with
  | nil =>
    obtain rfl := List.map_eq_nil_iff.mp h
    exact .nil
  | cons line others ih =>
    have hothers : ∀ line ∈ others, line.location.files = files :=
      fun line hline => hfiles line (List.mem_cons_of_mem _ hline)
    cases hplace : line.location.isDeleted gone with
    | true =>
      rw [List.filter_cons_of_neg (by simp [hplace])] at h
      exact .deleted hplace (ih h hothers hfiles')
    | false =>
      rw [List.filter_cons_of_pos (by simp [hplace]), List.map_cons] at h
      obtain ⟨line', others', rfl, hcontent, hrest⟩ := List.map_eq_cons_iff.mp h
      have hsame : line'.location.files = line.location.files :=
        (hfiles' line' List.mem_cons_self).trans (hfiles line List.mem_cons_self).symm
      exact .kept hplace (.line hcontent hsame)
        (ih hrest hothers fun line hline => hfiles' line (List.mem_cons_of_mem _ hline))

end TasksTrim

/-- A place in an included file is deleted when its line is, or the line that includes the file. -/
theorem Location.isDeleted_of_includedFrom {location inner : Location}
    (hfrom : inner.includedFrom = location.includedFrom ++ [⟨location.file, location.line⟩]) :
    inner.isDeleted gone = (gone inner.file inner.line || location.isDeleted gone) := by
  unfold isDeleted
  rw [hfrom, List.any_append]
  simp only [List.any_cons, List.any_nil, Bool.or_false]
  rw [Bool.or_comm (gone location.file location.line)]

/-! ## Lines and statements that are left -/

theorem AssetStore.Leaves.changes {store rest : AssetStore} (h : store.Leaves gone rest) :
    store.Changes (fun path => LeavesText (gone path)) rest :=
  ⟨h.unreadable, h.readable⟩

namespace BuildState.Trims

theorem defineEquate (h : state.Trims gone dead rest) {name : String} {value : Expr}
    (hstep : state.defineEquate name value = .ok next) :
    ∃ last, rest.defineEquate name value = .ok last ∧ next.Trims gone dead last := by
  obtain ⟨hlocal, hlabel, hname, bound, number, hbound, hnumber, rfl⟩ :=
    defineEquate_eq_ok.mp hstep
  refine ⟨_, defineEquate_eq_ok.mpr ⟨hlocal, fun hmem => hlabel (h.labels hmem),
    (h.nameFault?_eq name).trans hname, bound, number, ?_, hnumber, rfl⟩,
    h.actions, h.captures, h.macros, ?_, h.globals, h.labels⟩
  · rw [h.equates]
    exact hbound
  · rw [h.equates]

theorem declare (h : state.Trims gone dead rest) {location location' : Location}
    {label label' : Option (Spanned String)} {statements statements' : List Statement}
    (hlabel : label'.map Spanned.unplaced = label.map Spanned.unplaced)
    (hstatements : statements'.map Statement.unplaced = statements.map Statement.unplaced) :
    (state.declare location label statements).Trims gone dead
      (rest.declare location' label' statements') := by
  have hmacro := definesMacro_unplaced hstatements
  cases label with
  | none =>
    obtain rfl := Option.map_eq_none_iff.mp hlabel
    exact h
  | some name =>
    obtain ⟨name', rfl, hname⟩ := Option.map_eq_some_iff.mp hlabel
    have hnode : name'.node = name.node := (Spanned.mk.inj hname).1
    simp only [BuildState.declare, hmacro, hnode]
    split
    · exact h
    · have hdeclared : BuildState.Trims gone dead
          { state with labels := name.node :: state.labels }
          { rest with labels := name.node :: rest.labels } :=
        ⟨h.actions, h.captures, h.macros, h.equates, h.globals, List.cons_subset_cons _ h.labels⟩
      exact hdeclared.add _

end BuildState.Trims

theorem statementTasks_trim {label label' : Option (Spanned String)}
    {location location' : Location} {statements statements' : List Statement}
    (hkept : location.isDeleted gone = false)
    (hlabel : label'.map Spanned.unplaced = label.map Spanned.unplaced)
    (hfiles : location'.files = location.files)
    (hstatements : statements'.map Statement.unplaced = statements.map Statement.unplaced) :
    TasksTrim gone (statementTasks label location statements)
      (statementTasks label' location' statements') := by
  induction statements generalizing statements' with
  | nil =>
    obtain rfl := List.map_eq_nil_iff.mp hstatements
    exact .nil
  | cons first others ih =>
    obtain ⟨first', others', rfl, hfirst, hothers⟩ := List.map_eq_cons_iff.mp hstatements
    exact .kept hkept (.statement hlabel hfiles hfirst) (ih hothers)

/-- An included file that is left is opened, with the lines that are left of it. -/
theorem BuildState.Trims.openInclude (h : state.Trims gone dead rest)
    (hdirectories : search'.directories = search.directories)
    (hstore : search.store.Leaves gone search'.store) {operands : List Expr}
    {location location' : Location} (hkept : location.isDeleted gone = false)
    (hfiles : location'.files = location.files) {lines : List Line}
    (hstep : openInclude search operands location state = .ok (next, lines)) :
    ∃ last lines', openInclude search' operands location' rest = .ok (last, lines') ∧
      next.Trims gone dead last ∧ TasksTrim gone (lineTasks lines) (lineTasks lines') := by
  obtain ⟨path, asset, text, read, hpath, hasset, htext, hfresh, hread, rfl, rfl⟩ :=
    openInclude_eq_ok.mp hstep
  obtain ⟨asset', text', hasset', hsame, htext', hleaves⟩ :=
    locate_changes hstore.changes hasset htext
  rw [← hdirectories] at hasset'
  obtain ⟨read', hread', hlines⟩ := readSource_kept hread hleaves rest.sources.length
    asset'.path (location'.includedFrom ++ [⟨location'.file, location'.line⟩])
  have hfresh' : isBeingRead location' asset'.path = false := by
    rw [isBeingRead_eq_false, hfiles, hsame, ← isBeingRead_eq_false]
    exact hfresh
  refine ⟨_, read'.lines, openInclude_eq_ok.mpr
    ⟨path, asset', text', read', hpath, hasset', htext', hfresh', hread', rfl, rfl⟩, ?_, ?_⟩
  · refine BuildState.Trims.add ?_ _
    exact ⟨h.actions, h.captures, h.macros, h.equates, h.globals, h.labels⟩
  · refine .of_lines (location.files ++ [asset.path]) (hlines.trans ?_) ?_ ?_
    · refine congrArg (List.map Line.content) (List.filter_congr fun line hline => ?_)
      obtain ⟨hfile, hfrom⟩ := readSource_location hread hline
      rw [Location.isDeleted_of_includedFrom hfrom, hkept, hfile, Bool.or_false]
    · intro line hline
      obtain ⟨hfile, hfrom⟩ := readSource_location hread hline
      rw [Location.files_of_includedFrom hfrom, hfile]
    · intro line hline
      obtain ⟨hfile, hfrom⟩ := readSource_location hread' hline
      rw [Location.files_of_includedFrom hfrom, hfile, hfiles, hsame]

/-- A task that is left does what it did. -/
theorem BuildState.Trims.advance (h : state.Trims gone dead rest)
    (hdirectories : search'.directories = search.directories)
    (hstore : search.store.Leaves gone search'.store) {task task' : BuildTask}
    (hsame : task.Same task') (hkept : task.location.isDeleted gone = false)
    (hmay : MayDelete gone dead state task)
    {more : List BuildTask} (hstep : task.advance search state = .ok (next, more)) :
    ∃ last more', task'.advance search' rest = .ok (last, more') ∧ next.Trims gone dead last ∧
      TasksTrim gone more more' := by
  cases hsame with
  | @line line line' content files =>
    rcases Line.content_eq content with
      ⟨name, name', value, hbody, hbody', hname⟩ |
        ⟨label, label', statements, statements', hbody, hbody', hlabel, hstatements⟩
    · obtain ⟨hdefined, rfl⟩ := (advance_equate hbody).mp hstep
      obtain ⟨last, hlast, htrims⟩ := h.defineEquate hdefined
      rw [← hname] at hlast
      exact ⟨last, [], (advance_equate hbody').mpr ⟨hlast, rfl⟩, htrims, .nil⟩
    · rw [advance_statements hbody] at hstep
      cases hstep
      exact ⟨_, _, advance_statements hbody', h.declare hlabel hstatements,
        statementTasks_trim hkept hlabel files hstatements⟩
  | @statement label label' location location' statement statement' label_eq files content =>
    obtain ⟨-, hincludes', -⟩ := Statement.sort_unplaced content
    obtain ⟨-, hoperands, -⟩ := Statement.of_unplaced_eq content
    have hplace : (location.narrow statement.span).isDeleted gone = false := hkept
    cases hincludes : statement.includes with
    | true =>
      obtain ⟨lines, hopened, rfl⟩ := (advance_include hincludes).mp hstep
      have hfiles : (location'.narrow statement'.span).files =
          (location.narrow statement.span).files := files
      obtain ⟨last, lines', hopened', htrims, htasks⟩ :=
        h.openInclude hdirectories hstore hplace hfiles hopened
      rw [← hoperands] at hopened'
      exact ⟨last, _, (advance_include (hincludes'.trans hincludes)).mpr ⟨lines', hopened', rfl⟩,
        htrims, htasks⟩
    | false =>
      obtain ⟨hbuilt, rfl⟩ := (advance_statement hincludes).mp hstep
      obtain ⟨effect, happly, hcloses, hother⟩ := buildStatement_effect hincludes hbuilt
      have hhead (hclosed : effect.closes = true) (capture : Capture)
          (hcapture : capture ∈ state.captures.head?) :
          capture.location.isDeleted gone = false :=
        (hmay.nested (hcloses.symm.trans hclosed) capture hcapture).trans hkept
      obtain ⟨last, hlast, htrims⟩ :
          ∃ last, effect.apply rest (location'.narrow statement'.span) = .ok last ∧
            next.Trims gone dead last := h.effect hplace hhead happly
      exact ⟨last, [], (advance_statement (hincludes'.trans hincludes)).mpr
        ⟨hother h.equates h.macros.has label_eq content hlast, rfl⟩, htrims, .nil⟩

/-! ## Lines and statements that are deleted -/

/-- Declaring the label of a deleted line leaves its arm as it is. -/
theorem BuildState.Trims.declare_deleted (h : state.Trims gone dead rest)
    (hdead : InDeadArm gone dead state.captures) (location : Location)
    (label : Option (Spanned String)) (statements : List Statement) :
    (state.declare location label statements).Trims gone dead rest := by
  obtain hsame | ⟨found, -, hadded⟩ := state.declare_eq location label statements
  · rw [hsame]
    exact h
  · have hdeclared : BuildState.Trims gone dead
        { state with labels := found.node :: state.labels } rest :=
      ⟨h.actions, h.captures, h.macros, h.equates, h.globals,
        fun _ hmem => List.mem_cons_of_mem _ (h.labels hmem)⟩
    rw [hadded]
    exact hdeclared.append_deleted hdead _

/-- A task that is deleted adds to dead arms, and all that it leaves to be done is deleted. -/
theorem BuildState.Trims.advance_deleted (h : state.Trims gone dead rest) {task : BuildTask}
    (hdeleted : task.location.isDeleted gone = true) (hmay : MayDelete gone dead state task)
    {more : List BuildTask} (hstep : task.advance search state = .ok (next, more)) :
    next.Trims gone dead rest ∧ TasksTrim gone more [] := by
  have hdead := hmay.inside hdeleted
  cases task with
  | line line =>
    obtain ⟨body, location⟩ := line
    cases body with
    | equate name value => cases hmay.valueless hdeleted
    | statements label statements =>
      rw [advance_statements rfl] at hstep
      cases hstep
      refine ⟨h.declare_deleted hdead _ _ _, .of_deleted fun task htask => ?_⟩
      obtain ⟨statement, -, rfl⟩ := List.mem_map.mp htask
      exact hdeleted
  | statement label location statement =>
    have hplace : (location.narrow statement.span).isDeleted gone = true := hdeleted
    cases hincludes : statement.includes with
    | true =>
      obtain ⟨lines, hopened, rfl⟩ := (advance_include hincludes).mp hstep
      obtain ⟨path, asset, text, read, -, -, -, -, hread, rfl, rfl⟩ := openInclude_eq_ok.mp hopened
      constructor
      · have hregistered : BuildState.Trims gone dead { state with
            sources := state.sources ++ [⟨asset.path, text⟩]
            warnings := state.warnings ++ read.warnings } rest :=
          ⟨h.actions, h.captures, h.macros, h.equates, h.globals, h.labels⟩
        exact hregistered.append_deleted hdead _
      · refine .of_deleted fun task htask => ?_
        obtain ⟨line, hline, rfl⟩ := List.mem_map.mp htask
        obtain ⟨-, hfrom⟩ := readSource_location hread hline
        rw [BuildTask.location, Location.isDeleted_of_includedFrom hfrom, hplace, Bool.or_true]
    | false =>
      obtain ⟨hbuilt, rfl⟩ := (advance_statement hincludes).mp hstep
      obtain ⟨effect, happly, hcloses, -⟩ := buildStatement_effect hincludes hbuilt
      have hhead (hclosed : effect.closes = true) (capture : Capture)
          (hcapture : capture ∈ state.captures.head?) :
          capture.location.isDeleted gone = true :=
        (hmay.nested (hcloses.symm.trans hclosed) capture hcapture).trans hdeleted
      exact ⟨h.effect_deleted hdead hplace hhead happly, .nil⟩

/-! ## Programs -/

theorem DeletesDead.advance {task : BuildTask} {tasks more : List BuildTask}
    (h : DeletesDead gone dead search state (task :: tasks))
    (hstep : task.advance search state = .ok (next, more)) :
    DeletesDead gone dead search next (more ++ tasks) :=
  fun found task left hfound => h found task left (.step hstep hfound)

/-- What is left of the tasks builds what is left of the state. -/
theorem BuildState.Trims.run (hdirectories : search'.directories = search.directories)
    (hstore : search.store.Leaves gone search'.store) {tasks tasks' : List BuildTask}
    {last : BuildState} (hrun : BuildsTo search state tasks last [])
    (hdeletes : DeletesDead gone dead search state tasks) (h : state.Trims gone dead rest)
    (htasks : TasksTrim gone tasks tasks') :
    ∃ last', BuildsTo search' rest tasks' last' [] ∧ last.Trims gone dead last' := by
  generalize hleft : ([] : List BuildTask) = left at hrun
  induction hrun generalizing rest tasks' with
  | here state tasks =>
    subst hleft
    cases htasks
    exact ⟨rest, .here _ _, h⟩
  | @step state next last task more tasks left hstep _ ih =>
    have hmay := hdeletes state task tasks (.here _ _)
    cases htasks with
    | kept hkept same others =>
      obtain ⟨next', more', hstep', htrims, hmore⟩ :=
        h.advance hdirectories hstore same hkept hmay hstep
      obtain ⟨last', hlast', hresult⟩ :=
        ih (hdeletes.advance hstep) htrims (hmore.append others) hleft
      exact ⟨last', .step hstep' hlast', hresult⟩
    | deleted hdeleted others =>
      obtain ⟨htrims, hmore⟩ := h.advance_deleted hdeleted hmay hstep
      exact ih (hdeletes.advance hstep) htrims (hmore.append others) hleft

/-- A program and what is left of it. -/
structure Program.Trims (dead : Location → Prop) (program rest : Program) : Prop where
  actions : BodyTrims dead program.actions rest.actions
  macros : MacrosTrim dead program.macros rest.macros
  equates : rest.equates = program.equates

/-- What is left of the sources builds what is left of the program. -/
theorem buildProgram_trims {main main' : SourceFile}
    (hleaves : Leaves gone search main search' main') {read : SourceLines}
    (hread : readSource 0 main.name main.text [] = .ok read) {program : Program}
    (hbuilt : buildProgram search main read.lines = .ok program)
    (hdeletes : DeletesDead gone dead search (.initial [main]) (lineTasks read.lines)) :
    ∃ read' program', readSource 0 main'.name main'.text [] = .ok read' ∧
      buildProgram search' main' read'.lines = .ok program' ∧ program.Trims dead program' := by
  obtain ⟨last, hlast, hclosed⟩ := bind_eq_ok.mp hbuilt
  obtain ⟨read', hread', hlines⟩ := readSource_kept hread hleaves.main 0 main'.name []
  have hrun := buildLines_followed search _ _ _ _ hlast
  have hstart : (BuildState.initial [main]).Trims gone dead (.initial [main']) :=
    ⟨.nil, .nil, .nil, rfl, List.Subset.refl _, List.Subset.refl _⟩
  have htasks : TasksTrim gone (lineTasks read.lines) (lineTasks read'.lines) := by
    refine .of_lines [main.name] (hlines.trans ?_) ?_ ?_
    · refine congrArg (List.map Line.content) (List.filter_congr fun line hline => ?_)
      obtain ⟨hfile, hfrom⟩ := readSource_location hread hline
      rw [Location.isDeleted, hfrom, hfile]
      simp
    · intro line hline
      obtain ⟨hfile, hfrom⟩ := readSource_location hread hline
      rw [Location.files, hfrom, hfile]
      rfl
    · intro line hline
      obtain ⟨hfile, hfrom⟩ := readSource_location hread' hline
      rw [Location.files, hfrom, hfile, hleaves.name]
      rfl
  obtain ⟨last', hlast', htrims⟩ :=
    hstart.run hleaves.directories hleaves.store hrun hdeletes htasks
  split at hclosed
  case h_1 => cases BuildState.run_eq_ok.mp hclosed
  case h_2 hstack =>
    cases hclosed
    have hall := htrims.captures
    rw [hstack] at hall
    exact ⟨read', _, hread', buildProgram_of_buildsTo hread' hlast' hall.eq_nil,
      htrims.actions, htrims.macros, htrims.equates⟩

end Deleting

end Asm65816
