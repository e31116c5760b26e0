import Mathlib.Data.List.Dedup
import Asm65816.Asset.Petscii
import Asm65816.Proofs.IncludeDepth

/-!
# Includes come to an end

The machine that builds a program has no bound on the nesting of includes, and files may include
each other in any way. A file that is being read is refused when it is included once more, so the
files on the way to a statement are different ones. There are finitely many paths under which a
program can find its files, and hence the machine stops: at the end of the main source or at a
failure, and with the outcome of the builder that has room for all these paths.
-/

namespace Asm65816

/-- Building from a state and its tasks stops, when all tasks are done or one of them fails. -/
inductive BuildEnds (search : AssetSearch) :
    BuildState → List BuildTask → Except BuildFailure BuildState → Prop where
  | done (state : BuildState) : BuildEnds search state [] (.ok state)
  | fail {state : BuildState} {task : BuildTask} {failure : BuildFailure}
      (failed : task.advance search state = .error failure) (tasks : List BuildTask) :
      BuildEnds search state (task :: tasks) (.error failure)
  | step {state next : BuildState} {task : BuildTask} {more tasks : List BuildTask}
      {outcome : Except BuildFailure BuildState}
      (advanced : task.advance search state = .ok (next, more))
      (rest : BuildEnds search next (more ++ tasks) outcome) :
      BuildEnds search state (task :: tasks) outcome

section Ending

variable {search : AssetSearch} {state : BuildState}

namespace BuildEnds

/-- The machine stops in one way only. -/
theorem unique {tasks : List BuildTask} {first second : Except BuildFailure BuildState}
    (h : BuildEnds search state tasks first) (h' : BuildEnds search state tasks second) :
    first = second := by
  induction h with
  | done state =>
    cases h'
    rfl
  | fail failed tasks =>
    cases h' with
    | fail failed' => exact congrArg _ (Except.error.inj (failed.symm.trans failed'))
    | step advanced rest => cases failed.symm.trans advanced
  | step advanced rest ih =>
    cases h' with
    | fail failed => cases failed.symm.trans advanced
    | step advanced' rest' =>
      cases advanced.symm.trans advanced'
      exact ih rest'

/-- Tasks are done one after the other, up to the first failure. -/
theorem bind {first second : List BuildTask} {outcome : Except BuildFailure BuildState}
    {next : BuildState → Except BuildFailure BuildState}
    (h : BuildEnds search state first outcome)
    (hnext : ∀ mid, BuildEnds search mid second (next mid)) :
    BuildEnds search state (first ++ second) (outcome >>= next) := by
  induction h with
  | done state => exact hnext state
  | fail failed tasks => exact .fail failed _
  | step advanced rest ih =>
    rw [List.append_assoc] at ih
    exact .step advanced ih

/-- Steps that stop as the machine does are done one after the other. -/
theorem foldlM {α : Type} {step : BuildState → α → Except BuildFailure BuildState}
    {task : α → BuildTask} {items : List α}
    (hstep : ∀ item ∈ items, ∀ state, BuildEnds search state [task item] (step state item))
    (state : BuildState) :
    BuildEnds search state (items.map task) (items.foldlM step state) := by
  induction items generalizing state with
  | nil => exact .done state
  | cons item rest ih =>
    rw [List.foldlM_cons]
    exact (hstep item List.mem_cons_self state).bind
      (ih fun other hother => hstep other (List.mem_cons_of_mem _ hother))

end BuildEnds

/-! ## Statements and lines -/

/-- A file that is being read is not included once more. -/
theorem openInclude_beingRead {operands : List Expr} {location : Location} {path text : String}
    {asset : Asset} (hpath : expectFileName "INCLUDE" operands = .ok path)
    (hasset : search.store.locate search.directories path = .ok asset)
    (htext : asset.text = .ok text) (hreading : isBeingRead location asset.path = true) :
    openInclude search operands location state =
      .error ⟨⟨.invalidOperand (.includesItself asset.path), location⟩, state.sources⟩ := by
  simp only [openInclude, bind_eq_error]
  refine .inr ⟨path, BuildState.run_eq_ok.mpr hpath, .inr ⟨asset, ?_, .inr ⟨text, ?_, ?_⟩⟩⟩
  · exact BuildState.run_eq_ok.mpr (mapError_eq_ok.mpr hasset)
  · exact BuildState.run_eq_ok.mpr (mapError_eq_ok.mpr htext)
  · rw [if_pos hreading]
    rfl

/-- Where every file that is found is being read, an include fails at any depth as it does in the
machine. -/
theorem includeFile_eq_error {operands : List Expr} {location : Location} {failure : BuildFailure}
    (hreading : ∀ path asset, expectFileName "INCLUDE" operands = .ok path →
      search.store.locate search.directories path = .ok asset →
        isBeingRead location asset.path = true)
    (h : openInclude search operands location state = .error failure)
    (deeper : Option LineBuilder) :
    includeFile search deeper operands location state = .error failure := by
  simp only [openInclude, includeFile, bind_eq_error] at h ⊢
  rcases h with hpath | ⟨path, hpath, hasset | ⟨asset, hasset, htext | ⟨text, htext, h⟩⟩⟩
  · exact .inl hpath
  · exact .inr ⟨path, hpath, .inl hasset⟩
  · exact .inr ⟨path, hpath, .inr ⟨asset, hasset, .inl htext⟩⟩
  · refine .inr ⟨path, hpath, .inr ⟨asset, hasset, .inr ⟨text, htext, ?_⟩⟩⟩
    have hrepeats := hreading path asset (BuildState.run_eq_ok.mp hpath)
      (mapError_eq_ok.mp (BuildState.run_eq_ok.mp hasset))
    rw [if_pos hrepeats] at h ⊢
    obtain rfl := Except.error.inj h
    rfl

/-- A way of building the lines of included files that stops as the machine does, as long as there
can be a file that is not being read. -/
def StopsIncludes (search : AssetSearch) (paths : List String) (level : Nat)
    (deeper : Option LineBuilder) : Prop :=
  level + 1 ≤ paths.length → ∃ build, deeper = some build ∧
    ∀ lines state, (∀ line ∈ lines, line.Leads search paths (level + 1)) →
      BuildEnds search state (lineTasks lines) (build lines state)

section Stopping

variable {paths : List String} {level : Nat} {deeper : Option LineBuilder}
  (hcovers : search.Covers paths) (hdeeper : StopsIncludes search paths level deeper)

include hcovers hdeeper

theorem buildStatement_ends {label : Option (Spanned String)} {location : Location}
    {statement : Statement} (hchained : location.Chained paths level)
    (hnamed : ∀ path, statement.includes = true →
      expectFileName "INCLUDE" statement.operands = .ok path →
        AssetStore.candidates search.directories path ⊆ paths) (state : BuildState) :
    BuildEnds search state [.statement label location statement]
      (buildStatement search deeper label location state statement) := by
  cases hincludes : statement.includes with
  | false =>
    rw [buildStatement_of_not_includes hincludes deeper none]
    cases hbuilt : buildStatement search none label location state statement with
    | error failure =>
      refine .fail ?_ []
      simp only [BuildTask.advance, hincludes, Bool.false_eq_true, if_false, bind_eq_error]
      exact .inl hbuilt
    | ok next => exact .step ((advance_statement hincludes).mpr ⟨hbuilt, rfl⟩) (.done next)
  | true =>
    have hnamed (path : String) := hnamed path hincludes
    rw [buildStatement_of_includes hincludes]
    cases hopened : openInclude search statement.operands (location.narrow statement.span)
      state with
    | error failure =>
      have hfailed : includeFile search deeper statement.operands
          (location.narrow statement.span) state = .error failure := by
        cases deeper with
        | some build =>
          rw [includeFile_eq_openInclude, hopened]
          rfl
        | none =>
          -- There is no way to build deeper, so every file that is found is being read.
          refine includeFile_eq_error (fun path asset hpath hasset => ?_) hopened none
          rw [← Bool.not_eq_false]
          intro hfresh
          obtain ⟨build, hbuild, -⟩ :=
            hdeeper (hchained.narrow.level_lt hnamed hpath hasset hfresh)
          cases hbuild
      rw [hfailed]
      refine .fail ?_ []
      simp only [BuildTask.advance, hincludes, if_true, bind_eq_error]
      exact .inl hopened
    | ok found =>
      obtain ⟨opened, lines⟩ := found
      obtain ⟨hlevel, hlines⟩ := openInclude_leads hcovers hchained.narrow hnamed hopened
      obtain ⟨build, rfl, hbuild⟩ := hdeeper hlevel
      rw [includeFile_eq_openInclude, hopened, ok_bind]
      refine .step ((advance_include hincludes).mpr ⟨lines, hopened, rfl⟩) ?_
      rw [List.append_nil]
      exact hbuild lines opened hlines

theorem buildLine_ends {line : Line} (hline : line.Leads search paths level)
    (state : BuildState) :
    BuildEnds search state [.line line] (buildLine search deeper state line) := by
  cases hbody : line.body with
  | equate name value =>
    simp only [buildLine, hbody]
    cases hdefined : state.run (line.location.narrow name.span)
        (state.defineEquate name.node value) with
    | error failure =>
      refine .fail ?_ []
      simp only [BuildTask.advance, hbody, bind_eq_error]
      exact .inl hdefined
    | ok next =>
      exact .step ((advance_equate hbody).mpr ⟨BuildState.run_eq_ok.mp hdefined, rfl⟩) (.done next)
  | statements label statements =>
    rw [buildLine_eq deeper line hbody]
    refine .step (advance_statements hbody) ?_
    rw [List.append_nil]
    refine BuildEnds.foldlM (fun statement hstatement state => ?_) _
    exact buildStatement_ends hcovers hdeeper hline.chained
      (fun path hincludes hpath =>
        hline.named path (mem_includePaths hbody hstatement hincludes hpath)) state

end Stopping

/-- The builder with room for all paths stops as the machine does. -/
theorem buildLines_ends {paths : List String} (hcovers : search.Covers paths) {level depth : Nat}
    (hroom : paths.length ≤ level + depth) {lines : List Line}
    (hlines : ∀ line ∈ lines, line.Leads search paths level) (state : BuildState) :
    BuildEnds search state (lineTasks lines) (buildLines search depth lines state) := by
  induction depth generalizing level state lines with
  | zero =>
    have hdeeper : StopsIncludes search paths level none := by
      intro hlevel
      omega
    exact BuildEnds.foldlM (fun line hline state =>
      buildLine_ends hcovers hdeeper (hlines line hline) state) state
  | succ depth ih =>
    have hdeeper : StopsIncludes search paths level (some (buildLines search depth)) := by
      intro hlevel
      exact ⟨_, rfl, fun lines state hinner => ih (by omega) hinner state⟩
    exact BuildEnds.foldlM (fun line hline state =>
      buildLine_ends hcovers hdeeper (hlines line hline) state) state

end Ending

/-! ## The way to a task -/

/-- The paths that a task includes. -/
def BuildTask.includePaths : BuildTask → List String
  | line found => found.body.includePaths
  | statement _ _ found => found.includePath?.toList

/-- A task on the way to which there are different files, the main one first, and which leads to
the given paths only. -/
structure BuildTask.Leads (search : AssetSearch) (main : String) (paths : List String)
    (task : BuildTask) : Prop where
  chained : task.location.Chained paths task.location.includedFrom.length
  begins : ∃ located, task.location.files = main :: located
  named : ∀ path ∈ task.includePaths, AssetStore.candidates search.directories path ⊆ paths

section Leading

variable {search : AssetSearch} {main : String} {paths : List String}

/-- It does not matter how often a path is given. -/
theorem Line.Leads.dedup {line : Line} {level : Nat} (h : line.Leads search paths level) :
    line.Leads search paths.dedup level :=
  ⟨⟨h.chained.distinct, List.Subset.trans h.chained.found (List.subset_dedup paths),
      h.chained.length⟩,
    fun path hpath => List.Subset.trans (h.named path hpath) (List.subset_dedup paths)⟩

theorem AssetSearch.Covers.dedup (h : search.Covers paths) : search.Covers paths.dedup :=
  fun path hpath => List.Subset.trans (h path hpath) (List.subset_dedup paths)

theorem BuildTask.Leads.of_line {line : Line} {level : Nat} (h : line.Leads search paths level)
    (hbegins : ∃ located, line.location.files = main :: located) :
    (BuildTask.line line).Leads search main paths :=
  ⟨⟨h.chained.distinct, h.chained.found, rfl⟩, hbegins, h.named⟩

/-- The tasks that a task leaves lead to the same paths. -/
theorem BuildTask.Leads.advance (hcovers : search.Covers paths) {state next : BuildState}
    {task : BuildTask} {more : List BuildTask} (h : task.Leads search main paths)
    (hadvanced : task.advance search state = .ok (next, more)) :
    ∀ other ∈ more, other.Leads search main paths := by
  cases task with
  | line line =>
    cases hbody : line.body with
    | equate name value =>
      obtain ⟨-, rfl⟩ := (advance_equate hbody).mp hadvanced
      simp
    | statements label statements =>
      rw [advance_statements hbody] at hadvanced
      cases hadvanced
      intro other hother
      obtain ⟨statement, hstatement, rfl⟩ := List.mem_map.mp hother
      refine ⟨h.chained, h.begins, fun path hpath => h.named path ?_⟩
      rw [includePaths, hbody]
      exact List.mem_filterMap.mpr ⟨statement, hstatement, Option.mem_toList.mp hpath⟩
  | statement label location statement =>
    cases hincludes : statement.includes with
    | false =>
      obtain ⟨-, rfl⟩ := (advance_statement hincludes).mp hadvanced
      simp
    | true =>
      obtain ⟨lines, hopened, rfl⟩ := (advance_include hincludes).mp hadvanced
      have hnamed (path : String)
          (hpath : expectFileName "INCLUDE" statement.operands = .ok path) :
          AssetStore.candidates search.directories path ⊆ paths := by
        refine h.named path (Option.mem_toList.mpr ?_)
        rw [Statement.includePath?, if_pos hincludes, toOption_eq_some]
        exact hpath
      obtain ⟨-, hlines⟩ := openInclude_leads hcovers h.chained.narrow hnamed hopened
      obtain ⟨path, asset, text, read, -, -, -, -, hread, -, rfl⟩ := openInclude_eq_ok.mp hopened
      intro other hother
      obtain ⟨line, hline, rfl⟩ := List.mem_map.mp hother
      obtain ⟨-, hfrom⟩ := readSource_location hread hline
      obtain ⟨located, hlocated⟩ := h.begins
      refine .of_line (hlines line hline) ⟨located ++ [line.location.file], ?_⟩
      rw [Location.files_of_includedFrom hfrom]
      exact congrArg (· ++ [line.location.file]) hlocated

theorem BuildsTo.leads (hcovers : search.Covers paths) {state found : BuildState}
    {tasks left : List BuildTask} (h : BuildsTo search state tasks found left)
    (htasks : ∀ task ∈ tasks, task.Leads search main paths) :
    ∀ task ∈ left, task.Leads search main paths := by
  induction h with
  | here state tasks => exact htasks
  | step advanced rest ih =>
    refine ih fun task htask => ?_
    rcases List.mem_append.mp htask with hmore | hlater
    · exact (htasks _ List.mem_cons_self).advance hcovers advanced task hmore
    · exact htasks task (List.mem_cons_of_mem _ hlater)

end Leading

/-! ## Whole programs -/

/-- Building a main source comes to an end, however its files include each other. The machine
without a bound on includes stops in exactly one way, and the builder has the same outcome with any
depth from the number of different paths on under which the program can find its files; the depth
that programs are built with is no less. At every task that the machine comes to, the located files
on the way to it are different from each other and from the main file, so that there are no more
than these paths; and a file that lies on the way is refused as one that includes itself. -/
theorem includes_terminate (search : AssetSearch) (main : SourceFile) {read : SourceLines}
    (hread : readSource 0 main.name main.text [] = .ok read) :
    (∀ depth, (includeCandidates search main.text).dedup.length ≤ depth → ∀ outcome,
      BuildEnds search (.initial [main]) (lineTasks read.lines) outcome ↔
        outcome = buildLines search depth read.lines (.initial [main])) ∧
    (includeCandidates search main.text).dedup.length ≤ includeDepth search main.text ∧
    ∀ state task rest,
      BuildsTo search (.initial [main]) (lineTasks read.lines) state (task :: rest) →
        ∃ located, task.location.files = main.name :: located ∧ (main.name :: located).Nodup ∧
          located ⊆ includeCandidates search main.text ∧
          located.length ≤ (includeCandidates search main.text).dedup.length ∧
          ∀ label location statement path asset text,
            task = .statement label location statement → statement.includes = true →
            expectFileName "INCLUDE" statement.operands = .ok path →
            search.store.locate search.directories path = .ok asset → asset.text = .ok text →
            asset.path ∈ main.name :: located →
              task.advance search state = .error ⟨⟨.invalidOperand (.includesItself asset.path),
                location.narrow statement.span⟩, state.sources⟩ := by
  have hcovers := (includeCandidates_covers search main.text).dedup
  have hlines (line : Line) (hline : line ∈ read.lines) :
      line.Leads search (includeCandidates search main.text).dedup 0 :=
    (mainLines_lead hread hline).dedup
  refine ⟨fun depth hdepth outcome => ?_, ?_, fun state task rest hreached => ?_⟩
  · have hends := buildLines_ends hcovers (by simpa using hdepth) hlines (.initial [main])
    exact ⟨fun h => h.unique hends, fun h => h ▸ hends⟩
  · exact Nat.le_trans (List.dedup_sublist _).length_le (includeCandidates_length search main.text)
  · have htasks : ∀ task ∈ lineTasks read.lines,
        task.Leads search main.name (includeCandidates search main.text).dedup := by
      intro task htask
      obtain ⟨line, hline, rfl⟩ := List.mem_map.mp htask
      obtain ⟨hfile, hfrom⟩ := readSource_location hread hline
      exact .of_line (hlines line hline) ⟨[], by simp [Location.files, hfile, hfrom]⟩
    have hleads := hreached.leads hcovers htasks task List.mem_cons_self
    obtain ⟨located, hlocated⟩ := hleads.begins
    have hdistinct := hleads.chained.distinct
    have hfound := hleads.chained.found
    rw [hlocated] at hdistinct hfound
    refine ⟨located, hlocated, hdistinct, List.Subset.trans hfound (List.dedup_subset _), ?_, ?_⟩
    · exact (List.subperm_of_subset hdistinct.tail hfound).length_le
    · rintro label location statement path asset text rfl hincludes hpath hasset htext hrepeats
      have hreading : isBeingRead (location.narrow statement.span) asset.path = true := by
        rw [← Bool.not_eq_false, isBeingRead_eq_false, not_not]
        rwa [← hlocated] at hrepeats
      simp only [BuildTask.advance, hincludes, if_true, bind_eq_error]
      exact .inl (openInclude_beingRead hpath hasset htext hreading)

/-- The file that was refused because it includes itself, and the files on the way to it. -/
def repetition? : Except BuildFailure BuildState → Option (String × List String)
  | .error ⟨⟨.invalidOperand (.includesItself file), location⟩, _⟩ => some (file, location.files)
  | _ => none

/-- Two files that include each other, one of them found in a directory. -/
theorem includes_terminate_cycle :
    ∃ (search : AssetSearch) (main : SourceFile),
      search = ⟨.ofPaths [("a", utf8Bytes " .include \"b\"\n"),
        ("d/b", utf8Bytes " .include \"a\"\n")], ["d"]⟩ ∧
      main = ⟨"main.s", " .include \"a\"\n"⟩ ∧
      ∃ read, readSource 0 main.name main.text [] = .ok read ∧
        ∃ outcome, BuildEnds search (.initial [main]) (lineTasks read.lines) outcome ∧
          repetition? outcome = some ("a", ["main.s", "a", "d/b"]) := by
  refine ⟨_, _, rfl, rfl, ?_⟩
  let search : AssetSearch :=
    ⟨.ofPaths [("a", utf8Bytes " .include \"b\"\n"),
      ("d/b", utf8Bytes " .include \"a\"\n")], ["d"]⟩
  let main : SourceFile := ⟨"main.s", " .include \"a\"\n"⟩
  obtain ⟨read, hread, hrepeats⟩ := exists_ok_of_any
    (fun read => decide (repetition? (buildLines search (includeDepth search main.text) read.lines
      (.initial [main])) = some ("a", ["main.s", "a", "d/b"])))
    (show (readSource 0 main.name main.text []).toOption.any _ = true by decide +kernel)
  obtain ⟨hends, hdepth, -⟩ := includes_terminate search main hread
  exact ⟨read, hread, _, (hends _ hdepth _).mpr rfl, of_decide_eq_true hrepeats⟩

end Asm65816
