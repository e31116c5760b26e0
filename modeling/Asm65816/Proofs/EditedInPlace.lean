import Asm65816.Proofs.EditedPrograms

/-!
# Edits that keep the places

Edited sources that have their statements where they were build the program with its operations
changed, places and marks included. Only the texts of the sources differ, and nothing that is built
depends on them.
-/

namespace Asm65816

/-! ## Other sources -/

namespace BuildState

/-- The state, with other sources. -/
def withSources (sources : Sources) (state : BuildState) : BuildState :=
  { state with sources := sources }

variable (sources : Sources) (state : BuildState)

theorem withSources_append (action : Action) :
    (state.append action).withSources sources = (state.withSources sources).append action := by
  obtain ⟨given, warnings, actions, captures, macros, equates, globals, labels⟩ := state
  cases captures with
  | nil | cons => rfl

theorem withSources_add (operation : Operation) (location : Location) :
    (state.add operation location).withSources sources =
      (state.withSources sources).add operation location :=
  withSources_append sources state _

theorem append_sources (action : Action) : (state.append action).sources = state.sources := by
  obtain ⟨given, warnings, actions, captures, macros, equates, globals, labels⟩ := state
  cases captures with
  | nil | cons => rfl

/-- The exchange of the sources, as a view. -/
def sourcesView : BuildView where
  sources _ := sources
  warnings := id
  place := id
  body := id
  arms := id
  body_nil := rfl
  body_append _ _ := rfl
  body_callMacro _ _ _ := rfl
  body_conditional _ _ := rfl
  body_argumentLoop _ _ := rfl
  arms_nil := rfl
  arms_append _ _ _ _ := rfl

theorem sourcesView_state : (sourcesView sources).state = withSources sources := by
  have hcapture : (sourcesView sources).capture = id := by
    funext capture
    cases capture <;> rfl
  have hmacros : Table.mapValues (sourcesView sources).definition = id :=
    funext fun macros => List.map_id macros
  funext state
  simp only [BuildView.state, hcapture, hmacros, List.map_id]
  rfl

theorem defineEquate_withSources (name : String) (value : Expr) :
    (state.withSources sources).defineEquate name value =
      (state.defineEquate name value).map (withSources sources) := by
  rw [← sourcesView_state]
  exact (sourcesView sources).defineEquate_state state name value

theorem declare_withSources (location : Location) (label : Option (Spanned String))
    (statements : List Statement) :
    (state.withSources sources).declare location label statements =
      (state.declare location label statements).withSources sources := by
  cases label with
  | none => rfl
  | some label =>
    simp only [declare]
    split
    · rfl
    · rw [withSources_add]
      rfl

end BuildState

/-- What a statement does does not depend on the sources. -/
theorem Effect.apply_withSources (sources : Sources) (state : BuildState) (location : Location)
    (effect : Effect) :
    effect.apply (state.withSources sources) location =
      (effect.apply state location).map (BuildState.withSources sources) := by
  rw [← BuildState.sourcesView_state]
  exact (BuildState.sourcesView sources).effect_state state location effect
    fun _ _ => rfl

section Sources

variable {search : AssetSearch} {state next : BuildState} {task : BuildTask} {more : List BuildTask}

/-- A task that includes nothing does the same with other sources. -/
theorem BuildTask.advance_withSources (hplain : task.includes = false)
    (hstep : task.advance search state = .ok (next, more)) (sources : Sources) :
    task.advance search (state.withSources sources) = .ok (next.withSources sources, more) := by
  cases task with
  | line line =>
    obtain ⟨body, location⟩ := line
    cases body with
    | equate name value =>
      obtain ⟨hdefined, rfl⟩ := (advance_equate rfl).mp hstep
      refine (advance_equate rfl).mpr ⟨?_, rfl⟩
      rw [BuildState.defineEquate_withSources, hdefined]
      rfl
    | statements label row =>
      rw [advance_statements rfl] at hstep
      cases hstep
      rw [← BuildState.declare_withSources]
      exact advance_statements rfl
  | statement label location statement =>
    obtain ⟨hbuilt, rfl⟩ := (advance_statement hplain).mp hstep
    obtain ⟨effect, happly, -, hother⟩ := buildStatement_effect hplain hbuilt
    refine (advance_statement hplain).mpr ⟨hother rfl (fun _ => rfl) rfl rfl ?_, rfl⟩
    rw [Effect.apply_withSources, happly]
    rfl

/-- A task that includes nothing adds no sources. -/
theorem BuildTask.advance_sources (hplain : task.includes = false)
    (hstep : task.advance search state = .ok (next, more)) : next.sources = state.sources := by
  have hsame : task.advance search state = .ok (next.withSources state.sources, more) :=
    advance_withSources hplain hstep state.sources
  rw [hstep] at hsame
  have hnext := congrArg (fun step => step.1.sources) (Except.ok.inj hsame)
  exact hnext

end Sources

/-! ## Editing -/

/-- The second text of a source reads as the first one with its statements edited, each at its old
place. -/
def ReadsInPlace (edit : StatementEdit) (source : Nat) (file : String)
    (includedFrom : List IncludeSite) (text text' : String) : Prop :=
  ∀ read, readSource source file text includedFrom = .ok read →
    readSource source file text' includedFrom =
      .ok ⟨read.lines.map (Line.edited edit), read.warnings⟩

/-- The files that a program can include, and the same with their statements edited. -/
structure AssetSearch.EditsInPlace (edit : StatementEdit) (search search' : AssetSearch) :
    Prop where
  directories : search'.directories = search.directories
  store : search.store.Changes (fun path text text' => ∀ source includedFrom,
    includedFrom ≠ [] → ReadsInPlace edit source path includedFrom text text') search'.store

section Editing

variable {edit : StatementEdit} {change : OperationChange} {search search' : AssetSearch}
  {state next : BuildState}

/-- An edited task builds the changed operations. -/
theorem StatementEdit.Builds.advance_in_place (h : edit.Builds change)
    (hfiles : search.EditsInPlace edit search') (hspares : state.SparesWords) {task : BuildTask}
    {more : List BuildTask} (hstep : task.advance search state = .ok (next, more))
    {sources : Sources} (hlength : sources.length = state.sources.length) :
    ∃ sources', sources'.length = next.sources.length ∧
      (task.edited edit).advance search' ((state.mapOperations change).withSources sources) =
        .ok ((next.mapOperations change).withSources sources',
          more.map (BuildTask.edited edit)) := by
  cases hincludes : task.includes with
  | false =>
    have hedited : (task.edited edit).includes = false := by
      cases task with
      | line => rfl
      | statement => exact (h.includes _ _).trans hincludes
    refine ⟨sources, ?_, BuildTask.advance_search hedited
      (BuildTask.advance_withSources hedited (h.advance hspares hincludes hstep) sources)⟩
    rw [hlength, BuildTask.advance_sources hincludes hstep]
  | true =>
    cases task with
    | line => cases hincludes
    | statement label location statement =>
      obtain ⟨lines, hopened, rfl⟩ := (advance_include hincludes).mp hstep
      obtain ⟨path, asset, text, read, hpath, hasset, htext, hfresh, hread, rfl, rfl⟩ :=
        openInclude_eq_ok.mp hopened
      obtain ⟨⟨found, bytes⟩, text', hasset', rfl, htext', hedits⟩ :=
        locate_changes hfiles.store hasset htext
      have hread' := hedits _ _ (by simp) read hread
      rw [← hfiles.directories] at hasset'
      rw [← hlength] at hread'
      refine ⟨sources ++ [⟨asset.path, text'⟩], ?_,
        (advance_include ((h.includes _ _).trans hincludes)).mpr
          ⟨read.lines.map (Line.edited edit), openInclude_eq_ok.mpr
            ⟨path, _, text', _, ?_, hasset', htext', ?_, hread', ?_, rfl⟩, ?_⟩⟩
      · rw [BuildState.add, BuildState.append_sources, List.length_append, List.length_append,
          hlength]
        rfl
      · rw [h.files _ _ hincludes]
        exact hpath
      · exact hfresh
      · rw [BuildState.mapOperations_add, h.mark, BuildState.withSources_add, h.span]
        rfl
      · exact lineTasks_edited read.lines

/-- Edited tasks build the changed operations one after the other. -/
theorem StatementEdit.Builds.run_in_place (h : edit.Builds change)
    (hfiles : search.EditsInPlace edit search') {tasks : List BuildTask} {last : BuildState}
    (hrun : BuildsTo search state tasks last []) (hspares : state.SparesWords)
    {sources : Sources} (hlength : sources.length = state.sources.length) :
    ∃ sources', BuildsTo search' ((state.mapOperations change).withSources sources)
      (tasks.map (BuildTask.edited edit))
      ((last.mapOperations change).withSources sources') [] := by
  generalize hleft : ([] : List BuildTask) = left at hrun
  induction hrun generalizing sources with
  | here state tasks =>
    subst hleft
    exact ⟨sources, .here _ _⟩
  | step advanced _ ih =>
    obtain ⟨sources', hlength', hstep'⟩ := h.advance_in_place hfiles hspares advanced hlength
    obtain ⟨last', hlast'⟩ :=
      ih ((BuildTask.advance_defines advanced).sparesWords hspares) hlength' hleft
    rw [List.map_append] at hlast'
    exact ⟨last', .step hstep' hlast'⟩

/-- No macro is defined before the first line. -/
theorem BuildState.initial_sparesWords (sources : Sources) :
    (BuildState.initial sources).SparesWords :=
  ⟨fun name hname => (by cases hname), fun name hname => (by cases hname)⟩

/-- Sources that are edited in place build the program with its operations changed. -/
theorem buildProgram_in_place (h : edit.Builds change) (hfiles : search.EditsInPlace edit search')
    {main main' : SourceFile} (hname : main'.name = main.name)
    (hmain : ReadsInPlace edit 0 main.name [] main.text main'.text) {read : SourceLines}
    (hread : readSource 0 main.name main.text [] = .ok read) {program : Program}
    (hbuilt : buildProgram search main read.lines = .ok program) :
    ∃ sources, readSource 0 main'.name main'.text [] =
        .ok ⟨read.lines.map (Line.edited edit), read.warnings⟩ ∧
      buildProgram search' main' (read.lines.map (Line.edited edit)) =
        .ok { program.mapOperations change with sources := sources } := by
  obtain ⟨last, hlast, hclosed⟩ := bind_eq_ok.mp hbuilt
  have hread' := hmain read hread
  rw [← hname] at hread'
  have hrun := buildLines_followed search _ _ _ _ hlast
  have hlength : [main'].length = (BuildState.initial [main]).sources.length := rfl
  obtain ⟨sources, hlast'⟩ :=
    h.run_in_place hfiles hrun (BuildState.initial_sparesWords _) hlength
  rw [lineTasks_edited] at hlast'
  split at hclosed
  case h_1 => cases BuildState.run_eq_ok.mp hclosed
  case h_2 hstack =>
    cases hclosed
    have hcaptures : ((last.mapOperations change).withSources sources).captures = [] :=
      List.map_eq_nil_iff.mpr hstack
    exact ⟨sources, hread', buildProgram_of_buildsTo hread' hlast' hcaptures⟩

end Editing

end Asm65816
