import Asm65816.Proofs.BuildSteps

/-!
# Building a program, task by task

The builder is a machine over a list of tasks, which are lines and statements: a line becomes its
statements, and an `.INCLUDE` the lines of its file. The machine has no bound on the nesting of
includes. Whatever is built is the outcome of a run of this machine.
-/

namespace Asm65816

namespace Statement

/-- The name of a directive in upper case, without its period. -/
def directive? (statement : Statement) : Option String :=
  match statement.name.node.toList with
  | '.' :: rest => some (upperAscii (String.ofList rest))
  | _ => none

/-- Whether the statement ends in `...` and is no macro definition. -/
def misplacesEllipsis (statement : Statement) : Bool :=
  statement.ellipsis && !statement.isNamed ".MACRO"

/-- Whether the statement includes a file. -/
def includes (statement : Statement) : Bool :=
  statement.directive? == some "INCLUDE" && !statement.misplacesEllipsis

end Statement

/-- What the builder still has to do. -/
inductive BuildTask where
  | line (line : Line)
  /-- A statement, with the label of its line and where the line stands. -/
  | statement (label : Option (Spanned String)) (location : Location) (statement : Statement)

/-- Where the line of a task stands. -/
def BuildTask.location : BuildTask → Location
  | line found => found.location
  | statement _ location _ => location

/-- The tasks of lines. -/
def lineTasks (lines : List Line) : List BuildTask := lines.map BuildTask.line

/-- The tasks of the statements of a line. -/
def statementTasks (label : Option (Spanned String)) (location : Location)
    (statements : List Statement) : List BuildTask :=
  statements.map (BuildTask.statement label location)

/-- Declares the label of a line, unless it names a macro. -/
def BuildState.declare (state : BuildState) (location : Location)
    (label : Option (Spanned String)) (statements : List Statement) : BuildState :=
  match label with
  | none => state
  | some label =>
    if statements.head?.elim false fun first => first.isNamed ".MACRO" then state
    else { state with labels := label.node :: state.labels }.add
      (.declareLabel label.node) (location.narrow label.span)

/-- The label of a line is declared, unless there is none or it names a macro. -/
theorem BuildState.declare_eq (state : BuildState) (location : Location)
    (label : Option (Spanned String)) (statements : List Statement) :
    state.declare location label statements = state ∨
      ∃ found, label = some found ∧ state.declare location label statements =
        BuildState.add { state with labels := found.node :: state.labels }
          (.declareLabel found.node) (location.narrow found.span) := by
  cases label with
  | none => exact .inl rfl
  | some found =>
    by_cases hmacro : (statements.head?.elim false fun first => first.isNamed ".MACRO") = true
    · exact .inl (if_pos hmacro)
    · exact .inr ⟨found, rfl, if_neg hmacro⟩

/-- Finds and reads an included file: the state with its source registered, and its lines. -/
def openInclude (search : AssetSearch) (operands : List Expr) (location : Location)
    (state : BuildState) : Except BuildFailure (BuildState × List Line) := do
  let path ← state.run location (expectFileName "INCLUDE" operands)
  let asset ← state.run location
    ((search.store.locate search.directories path).mapError (Fault.ofAsset path))
  let text ← state.run location (asset.text.mapError (Fault.ofAsset path))
  if isBeingRead location asset.path then
    state.run location (.error (.invalidOperand (.includesItself asset.path)))
  else
    let source := state.sources.length
    let state := { state with sources := state.sources ++ [SourceFile.mk asset.path text] }
    let includedFrom := location.includedFrom ++ [IncludeSite.mk location.file location.line]
    let read ← state.run location
      ((readSource source asset.path text includedFrom).mapError (Fault.includedSource asset.path))
    let state := { state with warnings := state.warnings ++ read.warnings }
    return (state.add (.includeSource path) location, read.lines)

/-- Does the first part of a task: the state after it, and what the task leaves to be done before
everything else. -/
def BuildTask.advance (search : AssetSearch) (state : BuildState) :
    BuildTask → Except BuildFailure (BuildState × List BuildTask)
  | line found =>
    match found.body with
    | .equate name value => do
      let next ← state.run (found.location.narrow name.span)
        (state.defineEquate name.node value)
      return (next, [])
    | .statements label statements =>
      .ok (state.declare found.location label statements,
        statementTasks label found.location statements)
  | statement label location found =>
    if found.includes then do
      let (next, lines) ←
        openInclude search found.operands (location.narrow found.span) state
      return (next, lineTasks lines)
    else do
      let next ← buildStatement search none label location state found
      return (next, [])

/-- Building from one state and its tasks comes to another state, with the given tasks left. -/
inductive BuildsTo (search : AssetSearch) :
    BuildState → List BuildTask → BuildState → List BuildTask → Prop where
  | here (state : BuildState) (tasks : List BuildTask) : BuildsTo search state tasks state tasks
  | step {state next found : BuildState} {task : BuildTask} {more tasks left : List BuildTask}
      (advanced : task.advance search state = .ok (next, more))
      (rest : BuildsTo search next (more ++ tasks) found left) :
      BuildsTo search state (task :: tasks) found left

namespace BuildsTo

variable {search : AssetSearch}

theorem trans {first second third : BuildState} {tasks middle others : List BuildTask}
    (h : BuildsTo search first tasks second middle)
    (h' : BuildsTo search second middle third others) :
    BuildsTo search first tasks third others := by
  induction h with
  | here state tasks => exact h'
  | step advanced rest ih => exact .step advanced (ih h')

theorem append {state found : BuildState} {tasks left : List BuildTask}
    (h : BuildsTo search state tasks found left) (others : List BuildTask) :
    BuildsTo search state (tasks ++ others) found (left ++ others) := by
  induction h with
  | here state tasks => exact .here _ _
  | step advanced rest ih =>
    rw [List.append_assoc] at ih
    exact .step advanced ih

/-- Tasks that are done one after the other. -/
theorem done_append {state mid last : BuildState} {first second : List BuildTask}
    (h : BuildsTo search state first mid []) (h' : BuildsTo search mid second last []) :
    BuildsTo search state (first ++ second) last [] :=
  (h.append second).trans h'

/-- What is done to the end is done part by part. -/
theorem split {state last : BuildState} {first second : List BuildTask}
    (h : BuildsTo search state (first ++ second) last []) :
    ∃ mid, BuildsTo search state first mid [] ∧ BuildsTo search mid second last [] := by
  generalize hall : first ++ second = tasks at h
  generalize hleft : ([] : List BuildTask) = left at h
  induction h generalizing first with
  | here state tasks =>
    subst hleft
    obtain ⟨rfl, rfl⟩ := List.append_eq_nil_iff.mp hall
    exact ⟨state, .here _ _, .here _ _⟩
  | @step state next found task more tasks left advanced rest ih =>
    cases first with
    | nil =>
      cases hall
      subst hleft
      exact ⟨state, .here _ _, .step advanced rest⟩
    | cons head others =>
      cases hall
      obtain ⟨mid, hfirst, hsecond⟩ := ih (List.append_assoc more others second) hleft
      exact ⟨mid, .step advanced hfirst, hsecond⟩

end BuildsTo

/-! ## Statements and includes -/

section Building

variable {search : AssetSearch} {state next : BuildState}

theorem buildStatement_of_includes {statement : Statement} (h : statement.includes = true)
    (deeper : Option LineBuilder) (label : Option (Spanned String)) (location : Location) :
    buildStatement search deeper label location state statement =
      includeFile search deeper statement.operands (location.narrow statement.span) state := by
  obtain ⟨hdirective, hellipsis⟩ : statement.directive? = some "INCLUDE" ∧
      (statement.ellipsis && !statement.isNamed ".MACRO") = false := by
    simpa only [Statement.includes, Statement.misplacesEllipsis, Bool.and_eq_true, beq_iff_eq,
      Bool.not_eq_eq_eq_not, Bool.not_true] using h
  unfold Statement.directive? at hdirective
  split at hdirective
  case h_1 rest hname =>
    have hupper : upperAscii (String.ofList rest) = "INCLUDE" := Option.some.inj hdirective
    simp only [buildStatement, hellipsis, Bool.false_eq_true, if_false, hname, hupper]
  case h_2 => cases hdirective

theorem buildStatement_of_not_includes {statement : Statement} (h : statement.includes = false)
    (deeper other : Option LineBuilder) (label : Option (Spanned String)) (location : Location) :
    buildStatement search deeper label location state statement =
      buildStatement search other label location state statement := by
  unfold buildStatement
  dsimp only
  split
  case isTrue => rfl
  case isFalse hellipsis =>
    split
    case h_1 rest hname =>
      split
      case h_1 hupper =>
        have hincludes : statement.includes = true := by
          simp only [Statement.includes, Statement.directive?, hname, hupper,
            Statement.misplacesEllipsis, hellipsis]
          rfl
        cases h.symm.trans hincludes
      case h_2 => rfl
    case h_2 => rfl

theorem includeFile_eq_openInclude (build : LineBuilder) (operands : List Expr)
    (location : Location) :
    includeFile search (some build) operands location state =
      openInclude search operands location state >>= fun opened => build opened.2 opened.1 := by
  simp only [includeFile, openInclude, bind_assoc]
  refine bind_congr fun path => bind_congr fun asset => bind_congr fun text => ?_
  split
  · rfl
  · simp only [bind_assoc]
    rfl

theorem includeFile_none {operands : List Expr} {location : Location} :
    includeFile search none operands location state ≠ .ok next := by
  intro h
  simp only [includeFile, bind_eq_ok] at h
  obtain ⟨path, -, asset, -, text, -, h⟩ := h
  split at h
  case isTrue => cases BuildState.run_eq_ok.mp h
  case isFalse => cases BuildState.run_eq_ok.mp h

/-- Opening an included file finds it, reads it and registers it, unless it is being read. -/
theorem openInclude_eq_ok {operands : List Expr} {location : Location} {lines : List Line} :
    openInclude search operands location state = .ok (next, lines) ↔
      ∃ path asset text read, expectFileName "INCLUDE" operands = .ok path ∧
        search.store.locate search.directories path = .ok asset ∧ asset.text = .ok text ∧
        isBeingRead location asset.path = false ∧
        readSource state.sources.length asset.path text
          (location.includedFrom ++ [⟨location.file, location.line⟩]) = .ok read ∧
        next = BuildState.add { state with
          sources := state.sources ++ [⟨asset.path, text⟩]
          warnings := state.warnings ++ read.warnings } (.includeSource path) location ∧
        lines = read.lines := by
  simp only [openInclude, bind_eq_ok, BuildState.run_eq_ok, mapError_eq_ok]
  constructor
  · rintro ⟨path, hpath, asset, hasset, text, htext, h⟩
    split at h
    case isTrue => cases BuildState.run_eq_ok.mp h
    case isFalse hfresh =>
      simp only [bind_eq_ok, BuildState.run_eq_ok, mapError_eq_ok, pure_eq_ok,
        Prod.mk.injEq] at h
      obtain ⟨read, hread, rfl, rfl⟩ := h
      exact ⟨path, asset, text, read, hpath, hasset, htext, by simpa using hfresh, hread, rfl, rfl⟩
  · rintro ⟨path, asset, text, read, hpath, hasset, htext, hfresh, hread, rfl, rfl⟩
    refine ⟨path, hpath, asset, hasset, text, htext, ?_⟩
    simp only [hfresh, Bool.false_eq_true, if_false, bind_eq_ok, BuildState.run_eq_ok,
      mapError_eq_ok]
    exact ⟨read, hread, rfl⟩

theorem buildLine_eq (deeper : Option LineBuilder) (line : Line)
    {label : Option (Spanned String)} {statements : List Statement}
    (hbody : line.body = .statements label statements) :
    buildLine search deeper state line =
      statements.foldlM (buildStatement search deeper label line.location)
        (state.declare line.location label statements) := by
  unfold buildLine
  rw [hbody]
  cases label <;> rfl

/-- Steps that a run of the machine can follow are followed one after the other. -/
theorem foldlM_buildsTo {α : Type} {step : BuildState → α → Except BuildFailure BuildState}
    {task : α → BuildTask} (hstep : ∀ state next item, step state item = .ok next →
      BuildsTo search state [task item] next [])
    {items : List α} (h : items.foldlM step state = .ok next) :
    BuildsTo search state (items.map task) next [] := by
  induction items generalizing state with
  | nil =>
    obtain rfl := pure_eq_ok.mp h
    exact .here _ _
  | cons item rest ih =>
    rw [List.foldlM_cons, bind_eq_ok] at h
    obtain ⟨mid, hmid, hrest⟩ := h
    exact (hstep state mid item hmid).done_append (ih hrest)

/-- Steps that do what the machine does are done one after the other. -/
theorem BuildsTo.foldlM {α : Type} {step : BuildState → α → Except BuildFailure BuildState}
    {task : α → BuildTask} {items : List α}
    (hstep : ∀ item ∈ items, ∀ state next, BuildsTo search state [task item] next [] →
      step state item = .ok next)
    (h : BuildsTo search state (items.map task) next []) : items.foldlM step state = .ok next := by
  induction items generalizing state with
  | nil =>
    cases h
    rfl
  | cons item rest ih =>
    have hall : BuildsTo search state ([task item] ++ rest.map task) next [] := h
    obtain ⟨mid, hmid, hrest⟩ := hall.split
    rw [List.foldlM_cons, bind_eq_ok]
    refine ⟨mid, hstep item List.mem_cons_self state mid hmid, ?_⟩
    exact ih (fun item hitem => hstep item (List.mem_cons_of_mem _ hitem)) hrest

theorem advance_equate {line : Line} {name : Spanned String} {value : Expr}
    (hbody : line.body = .equate name value) {more : List BuildTask} :
    BuildTask.advance search state (.line line) = .ok (next, more) ↔
      state.defineEquate name.node value = .ok next ∧ more = [] := by
  simp only [BuildTask.advance, hbody, bind_eq_ok, pure_eq_ok, BuildState.run_eq_ok,
    Prod.mk.injEq]
  constructor
  · rintro ⟨found, hfound, rfl, rfl⟩
    exact ⟨hfound, rfl⟩
  · rintro ⟨hfound, rfl⟩
    exact ⟨next, hfound, rfl, rfl⟩

theorem advance_statements {line : Line} {label : Option (Spanned String)}
    {statements : List Statement} (hbody : line.body = .statements label statements) :
    BuildTask.advance search state (.line line) =
      .ok (state.declare line.location label statements,
        statementTasks label line.location statements) := by
  simp only [BuildTask.advance, hbody]

theorem advance_include {label : Option (Spanned String)} {location : Location}
    {statement : Statement} (h : statement.includes = true) {more : List BuildTask} :
    BuildTask.advance search state (.statement label location statement) = .ok (next, more) ↔
      ∃ lines, openInclude search statement.operands (location.narrow statement.span) state =
        .ok (next, lines) ∧ more = lineTasks lines := by
  simp only [BuildTask.advance, h, if_true, bind_eq_ok, pure_eq_ok, Prod.mk.injEq]
  constructor
  · rintro ⟨⟨found, lines⟩, hopened, rfl, rfl⟩
    exact ⟨lines, hopened, rfl⟩
  · rintro ⟨lines, hopened, rfl⟩
    exact ⟨(next, lines), hopened, rfl, rfl⟩

theorem advance_statement {label : Option (Spanned String)} {location : Location}
    {statement : Statement} (h : statement.includes = false) {more : List BuildTask} :
    BuildTask.advance search state (.statement label location statement) = .ok (next, more) ↔
      buildStatement search none label location state statement = .ok next ∧ more = [] := by
  simp only [BuildTask.advance, h, Bool.false_eq_true, if_false, bind_eq_ok, pure_eq_ok,
    Prod.mk.injEq]
  constructor
  · rintro ⟨found, hfound, rfl, rfl⟩
    exact ⟨hfound, rfl⟩
  · rintro ⟨hfound, rfl⟩
    exact ⟨next, hfound, rfl, rfl⟩

/-- A task that leaves the given tasks is done with them. -/
theorem BuildsTo.of_advance {task : BuildTask} {mid : BuildState} {more : List BuildTask}
    (hadvanced : task.advance search state = .ok (mid, more))
    (hrest : BuildsTo search mid more next []) : BuildsTo search state [task] next [] := by
  rw [← List.append_nil more] at hrest
  exact .step hadvanced hrest

theorem BuildsTo.single {task : BuildTask} (h : BuildsTo search state [task] next []) :
    ∃ mid more, task.advance search state = .ok (mid, more) ∧ BuildsTo search mid more next [] := by
  cases h with
  | @step _ mid _ _ more _ _ advanced rest =>
    rw [List.append_nil] at rest
    exact ⟨mid, more, advanced, rest⟩

/-- A way of building lines that a run of the machine can follow. -/
def LineBuilder.Followed (search : AssetSearch) (build : LineBuilder) : Prop :=
  ∀ lines state last, build lines state = .ok last →
    BuildsTo search state (lineTasks lines) last []

section Following

variable {deeper : Option LineBuilder}
  (hdeeper : ∀ build, deeper = some build → build.Followed search)

include hdeeper

theorem buildStatement_buildsTo {label : Option (Spanned String)} {location : Location}
    {statement : Statement}
    (h : buildStatement search deeper label location state statement = .ok next) :
    BuildsTo search state [.statement label location statement] next [] := by
  cases hincludes : statement.includes with
  | false =>
    rw [buildStatement_of_not_includes hincludes deeper none] at h
    exact .of_advance ((advance_statement hincludes).mpr ⟨h, rfl⟩) (.here _ _)
  | true =>
    rw [buildStatement_of_includes hincludes] at h
    cases deeper with
    | none => exact absurd h includeFile_none
    | some build =>
      rw [includeFile_eq_openInclude, bind_eq_ok] at h
      obtain ⟨⟨opened, lines⟩, hopened, hlines⟩ := h
      exact .of_advance ((advance_include hincludes).mpr ⟨lines, hopened, rfl⟩)
        (hdeeper build rfl lines opened next hlines)

theorem buildLine_buildsTo {line : Line} (h : buildLine search deeper state line = .ok next) :
    BuildsTo search state [.line line] next [] := by
  cases hbody : line.body with
  | equate name value =>
    simp only [buildLine, hbody] at h
    exact .of_advance ((advance_equate hbody).mpr ⟨BuildState.run_eq_ok.mp h, rfl⟩) (.here _ _)
  | statements label statements =>
    rw [buildLine_eq deeper line hbody] at h
    refine .of_advance (advance_statements hbody) (foldlM_buildsTo ?_ h)
    intro state next statement hstatement
    exact buildStatement_buildsTo hdeeper hstatement

end Following

/-- Building lines to any depth of includes is followed by the machine, which has no depth. -/
theorem buildLines_followed (search : AssetSearch) (depth : Nat) :
    LineBuilder.Followed search (buildLines search depth) := by
  induction depth with
  | zero =>
    intro lines state last h
    refine foldlM_buildsTo (fun state next line hline => ?_) h
    exact buildLine_buildsTo (fun build hbuild => by cases hbuild) hline
  | succ depth ih =>
    intro lines state last h
    refine foldlM_buildsTo (fun state next line hline => ?_) h
    refine buildLine_buildsTo (fun build hbuild => ?_) hline
    cases hbuild
    exact ih

end Building

end Asm65816
