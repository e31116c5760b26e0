import Asm65816.Proofs.DefinedNames
import Asm65816.Proofs.StatementEffects
import Mathlib.Data.List.Sort

/-!
# The name tables stay consistent

Names are defined on five ways: equates and macros while a program is built, labels, local labels
and global names while it is laid out. Whatever was defined before, no name comes to stand for two
things. A label has the addresses of its declarations, a global name leads to a segment that
declares it, and neither an equate nor a segment ever becomes another one.
-/

namespace Asm65816

/-! ## Building -/

namespace BuildState

variable {state next : BuildState}

@[simp] theorem append_equates (state : BuildState) (action : Action) :
    (state.append action).equates = state.equates := by
  unfold append
  split
  · rfl
  · rfl

@[simp] theorem append_macros (state : BuildState) (action : Action) :
    (state.append action).macros = state.macros := by
  unfold append
  split
  · rfl
  · rfl

/-- No name is both an equate and a macro. -/
def Apart (state : BuildState) : Prop :=
  ∀ name, state.equates.get? name = none ∨ state.macros.get? name = none

/-- What a part of a program defines: nothing, or an equate or a macro under a name that stands for
nothing else. -/
inductive Defines (state next : BuildState) : Prop where
  | nothing (equates : next.equates = state.equates)
      (macros : ∀ name, next.macros.has name = state.macros.has name)
  | equate (name : String) (number : Number) (free : FreeName state.equates state.macros name)
      (equates : next.equates = state.equates.put name number)
      (macros : next.macros = state.macros)
  | macroName (name : String) (definition : MacroDefinition)
      (free : FreeName state.equates state.macros name) (equates : next.equates = state.equates)
      (macros : next.macros = state.macros.put name definition)

theorem Defines.of_append (state : BuildState) (action : Action) :
    Defines state (state.append action) :=
  .nothing (append_equates _ _) fun name => by rw [append_macros]

theorem Defines.of_declareGlobals {location : Location} {position : Nat} {operands : List Expr}
    (h : BuildState.declareGlobals location position operands state = .ok next) :
    Defines state next := by
  suffices hsame : next.equates = state.equates ∧ next.macros = state.macros from
    .nothing hsame.1 fun name => by rw [hsame.2]
  induction operands generalizing position state with
  | nil =>
    cases h
    exact ⟨rfl, rfl⟩
  | cons operand rest ih =>
    obtain ⟨name, -, -, -, h⟩ := declareGlobals_cons.mp h
    simpa [BuildState.add] using ih h

theorem Defines.of_beginMacro {label : Option (Spanned String)} {variadic : Bool}
    {operands : List Expr} {location : Location}
    (h : state.beginMacro label variadic operands location = .ok next) : Defines state next := by
  obtain ⟨found, parameters, -, -, hfault, -, rfl⟩ := beginMacro_eq_ok.mp h
  exact .macroName found.node _ (nameFault?_eq_none hfault).2 rfl rfl

theorem Defines.of_endMacro {operands : List Expr} (h : state.endMacro operands = .ok next) :
    Defines state next := by
  obtain ⟨-, name, body, opened, rest, -, rfl⟩ := endMacro_eq_ok.mp h
  refine .nothing rfl fun other => ?_
  simp only [Table.has, Table.get?_alter]
  split
  · rw [Option.isSome_map]
  · rfl

/-- What the effect of a statement defines. -/
theorem Defines.of_effect {effect : Effect} {location : Location}
    (h : effect.apply state location = .ok next) : Defines state next := by
  cases effect with
  | add operation =>
    cases h
    exact .of_append _ _
  | call name operands =>
    cases h
    exact .of_append _ _
  | declareGlobals operands => exact .of_declareGlobals h
  | beginMacro label variadic operands => exact .of_beginMacro h
  | endMacro operands => exact .of_endMacro h
  | openConditional condition =>
    cases h
    exact .nothing rfl fun _ => rfl
  | openLoop =>
    cases h
    exact .nothing rfl fun _ => rfl
  | nextArm condition =>
    obtain ⟨arms, current, body, armLocation, opened, rest, -, rfl⟩ := nextArm_eq_ok.mp h
    exact .nothing rfl fun _ => rfl
  | endConditional =>
    obtain ⟨arms, current, body, armLocation, opened, rest, -, rfl⟩ := endConditional_eq_ok.mp h
    exact .nothing (append_equates _ _) fun name => by rw [append_macros]
  | endLoop =>
    obtain ⟨body, opened, rest, -, rfl⟩ := endLoop_eq_ok.mp h
    exact .nothing (append_equates _ _) fun name => by rw [append_macros]

theorem Defines.of_defineEquate {name : String} {value : Expr}
    (h : state.defineEquate name value = .ok next) : Defines state next := by
  obtain ⟨-, -, hfault, bound, number, -, -, rfl⟩ := defineEquate_eq_ok.mp h
  exact .equate name number (nameFault?_eq_none hfault).2 rfl rfl

theorem Defines.of_declare (state : BuildState) (location : Location)
    (label : Option (Spanned String)) (statements : List Statement) :
    Defines state (state.declare location label statements) := by
  obtain hsame | ⟨found, -, hadded⟩ := state.declare_eq location label statements
  · rw [hsame]
    exact .nothing rfl fun _ => rfl
  · rw [hadded]
    exact .nothing (append_equates _ _) fun name => by rw [BuildState.add, append_macros]

/-- A definition keeps equates and macros apart. -/
theorem Defines.apart (h : Defines state next) (hapart : state.Apart) : next.Apart := by
  intro name
  cases h with
  | nothing equates macros =>
    rw [equates]
    refine (hapart name).imp_right fun hnone => ?_
    have hhas := macros name
    rw [Table.has, Table.has, hnone] at hhas
    simpa using hhas
  | equate defined number free equates macros =>
    rw [equates, macros, Table.get?_put]
    split
    case isTrue hname => exact .inr (hname ▸ free.notMacro)
    case isFalse => exact hapart name
  | macroName defined definition free equates macros =>
    rw [equates, macros, Table.get?_put]
    split
    case isTrue hname => exact .inl (hname ▸ free.notEquate)
    case isFalse => exact hapart name

/-- A definition keeps the equates that there are. -/
theorem Defines.get?_equates (h : Defines state next) {name : String} {number : Number}
    (hnumber : state.equates.get? name = some number) : next.equates.get? name = some number := by
  cases h with
  | nothing equates macros => rwa [equates]
  | macroName defined definition free equates macros => rwa [equates]
  | equate defined value free equates macros =>
    have hother : defined ≠ name := by
      rintro rfl
      cases free.notEquate.symm.trans hnumber
    rw [equates, Table.get?_put, if_neg hother, hnumber]

end BuildState

/-- What a task of the builder defines. -/
theorem BuildTask.advance_defines {search : AssetSearch} {state next : BuildState}
    {task : BuildTask} {more : List BuildTask}
    (h : task.advance search state = .ok (next, more)) : state.Defines next := by
  cases task with
  | line line =>
    cases hbody : line.body with
    | equate name value => exact .of_defineEquate ((advance_equate hbody).mp h).1
    | statements label statements =>
      rw [advance_statements hbody] at h
      cases h
      exact .of_declare _ _ _ _
  | statement label location statement =>
    cases hincludes : statement.includes with
    | true =>
      obtain ⟨lines, hopened, -⟩ := (advance_include hincludes).mp h
      obtain ⟨path, asset, text, read, -, -, -, -, -, rfl, -⟩ := openInclude_eq_ok.mp hopened
      exact .nothing (BuildState.append_equates _ _) fun name => by
        rw [BuildState.add, BuildState.append_macros]
    | false =>
      obtain ⟨hbuilt, -⟩ := (advance_statement hincludes).mp h
      obtain ⟨effect, heffect, -⟩ := buildStatement_effect hincludes hbuilt
      exact .of_effect heffect

/-- Equates and macros stay apart while a program is built. -/
theorem BuildsTo.apart {search : AssetSearch} {state found : BuildState}
    {tasks left : List BuildTask} (h : BuildsTo search state tasks found left)
    (hapart : state.Apart) : found.Apart := by
  induction h with
  | here state tasks => exact hapart
  | step advanced rest ih => exact ih ((BuildTask.advance_defines advanced).apart hapart)

/-- An equate keeps its number while a program is built. -/
theorem BuildsTo.get?_equates {search : AssetSearch} {state found : BuildState}
    {tasks left : List BuildTask} (h : BuildsTo search state tasks found left) {name : String}
    {number : Number} (hnumber : state.equates.get? name = some number) :
    found.equates.get? name = some number := by
  induction h with
  | here state tasks => exact hnumber
  | step advanced rest ih =>
    exact ih ((BuildTask.advance_defines advanced).get?_equates hnumber)

/-- A program has the equates, macros and actions of the state that building its lines comes to. -/
theorem buildProgram_buildsTo {search : AssetSearch} {main : SourceFile} {lines : List Line}
    {program : Program} (h : buildProgram search main lines = .ok program) :
    ∃ state, BuildsTo search (.initial [main]) (lineTasks lines) state [] ∧
      program.equates = state.equates ∧ program.macros = state.macros ∧
      program.actions = state.actions := by
  obtain ⟨state, hstate, h⟩ := bind_eq_ok.mp h
  have hbuilds := buildLines_followed search _ lines _ state hstate
  split at h
  case h_1 => cases BuildState.run_eq_ok.mp h
  case h_2 =>
    obtain rfl := pure_eq_ok.mp h
    exact ⟨state, hbuilds, rfl, rfl, rfl⟩

/-! ## Segments -/

/-- The segment as it was created. -/
def Segment.created (segment : Segment) : Segment :=
  .new segment.name segment.start segment.size segment.fileOffset segment.location

namespace Layout

/-- The segment found under a name, as it was created. -/
def created? (layout : Layout) (key : String) : Option Segment :=
  (layout.segments.get? key).map Segment.created

theorem created?_definitions (layout : Layout) (key : String) :
    layout.definitions.created? key = layout.created? key := by
  rw [created?, created?, get?_definitions, Option.map_map]
  rfl

theorem created?_setCurrent {layout : Layout} {key : String} {found : Segment}
    (h : layout.requireSegment = .ok (key, found)) (segment : Segment)
    (hsame : segment.created = found.created) (other : String) :
    (layout.setSegment key segment).created? other = layout.created? other := by
  simp only [created?, get?_setSegment]
  split
  case isTrue hkey =>
    rw [← hkey, (requireSegment_eq_ok.mp h).2, Option.map_some, Option.map_some, Option.map_some,
      hsame]
  case isFalse => rfl

end Layout

/-- A task of the first walk keeps the segments that there are. -/
theorem TaskDefines.created? {environment : Environment} {layout next : Layout} {task : Task}
    {event : Event} (h : TaskDefines environment layout next task event) {key : String}
    {segment : Segment} (hsegment : layout.created? key = some segment) :
    next.created? key = some segment := by
  cases h with
  | segment calls name start size fileOffset location added =>
    obtain ⟨hfree, rfl⟩ := Layout.addSegment_eq_ok.mp added
    have hother : upperText (Segment.new name start size fileOffset location).name ≠ key := by
      rintro rfl
      rw [Layout.created?, hfree] at hsegment
      cases hsegment
    rw [Layout.created?, Table.get?_put, if_neg hother]
    exact hsegment
  | label calls name location declared =>
    obtain ⟨current, found, labels, globals, hcurrent, rfl⟩ := Layout.declareLabel_eq_ok declared
    exact (Layout.created?_setCurrent hcurrent { found with labels := labels } rfl key).trans
      hsegment
  | globalName calls name location published =>
    obtain ⟨requests, globals, rfl⟩ := Layout.setGlobal_eq_ok published
    exact hsegment
  | globalAll calls location published =>
    obtain ⟨current, found, hcurrent, rfl⟩ := Layout.setGlobalAll_eq_ok published
    rwa [Layout.created?_setCurrent hcurrent { found with globalAll := true } rfl]
  | nothing task undeclared same =>
    rwa [← Layout.created?_definitions, same, Layout.created?_definitions]

/-- A segment stays as it was created while a program is laid out. -/
theorem WalksThrough.created? {environment : Environment} {start layout : Layout}
    {tasks others : List Task} {trace : List (Layout × Event)}
    (walk : WalksThrough environment start tasks trace layout others) {key : String}
    {segment : Segment} (hsegment : start.created? key = some segment) :
    layout.created? key = some segment := by
  induction walk with
  | here => exact hsegment
  | step walk advanced ih => exact (Task.advance_defines advanced).created? ih

/-! ## Labels -/

/-- Addresses are kept in ascending order. -/
theorem insertAddress_eq (address : Int) (addresses : List Int) :
    insertAddress address addresses = addresses.orderedInsert (· ≤ ·) address := by
  induction addresses with
  | nil => rfl
  | cons first rest ih => rw [insertAddress, List.orderedInsert_cons, ih]

theorem insertAddress_perm (address : Int) (addresses : List Int) :
    (insertAddress address addresses).Perm (address :: addresses) := by
  rw [insertAddress_eq]
  exact List.perm_orderedInsert _ _ _

/-- Where an event declares a label of a segment, if it does. -/
def declaredAt? (key name : String) : Layout × Event → Option Int
  | (layout, .operation (.declareLabel written) _ _) =>
    if layout.current = some key ∧ declaredName written = name then some layout.address else none
  | _ => none

/-- The addresses at which a walk has declared a label of a segment, in turn. -/
def declarations (key name : String) (trace : List (Layout × Event)) : List Int :=
  trace.filterMap (declaredAt? key name)

/-- The addresses of the label that a segment declares under a name; there are none without it. -/
def Layout.addresses (layout : Layout) (key name : String) : List Int :=
  (layout.label? key name).elim [] Label.addresses

/-- A label that may stand under a name: it has addresses in ascending order, and only one unless
it is local. -/
structure Label.Proper (label : Label) (name : String) : Prop where
  declared : label.addresses ≠ []
  ordered : label.addresses.Pairwise (· ≤ ·)
  single : isLocal name = false → ∃ address, label.addresses = [address]

/-- A local label may have one more address. -/
theorem Label.Proper.redeclared {label : Label} {name : String} (h : label.Proper name)
    (hlocal : isLocal name = true) (address : Int) :
    Label.Proper { label with addresses := insertAddress address label.addresses } name := by
  refine ⟨fun hnil => ?_, ?_, fun hglobal => ?_⟩
  · have hperm := insertAddress_perm address label.addresses
    rw [show insertAddress address label.addresses = [] from hnil] at hperm
    exact List.cons_ne_nil _ _ hperm.symm.eq_nil
  · rw [insertAddress_eq]
    exact h.ordered.orderedInsert _ _
  · rw [hlocal] at hglobal
    cases hglobal

/-- The labels and global names of a layout that the first walk has come to through `trace`. -/
structure Layout.NamesConsistent (environment : Environment) (trace : List (Layout × Event))
    (layout : Layout) : Prop where
  free : ∀ key name label, layout.label? key name = some label →
    FreeName environment.equates environment.macros name
  proper : ∀ key name label, layout.label? key name = some label → label.Proper name
  counted : ∀ key name, (layout.addresses key name).Perm (declarations key name trace)
  owned : ∀ name key, layout.globals.get? name = some key →
    ∃ label, layout.label? key name = some label

namespace Layout.NamesConsistent

variable {environment : Environment} {layout next : Layout} {trace : List (Layout × Event)}
  {event : Event}

/-- An event that declares no label adds no declaration. -/
theorem declarations_of_other
    (hother : ∀ name size location, event ≠ .operation (.declareLabel name) size location)
    (key name : String) :
    declarations key name (trace ++ [(layout, event)]) = declarations key name trace := by
  have hnone : declaredAt? key name (layout, event) = none := by
    unfold declaredAt?
    split
    case h_1 found written size location heq =>
      cases heq
      exact absurd rfl (hother _ _ _)
    case h_2 => rfl
  rw [declarations, List.filterMap_append, List.filterMap_cons_none hnone, List.filterMap_nil,
    List.append_nil, declarations]

/-- Names stay consistent while labels stay and every new global name is a label of its segment. -/
theorem of_labels (h : NamesConsistent environment trace layout)
    (hother : ∀ name size location, event ≠ .operation (.declareLabel name) size location)
    (hlabel : ∀ key name, next.label? key name = layout.label? key name)
    (hglobals : ∀ name key, next.globals.get? name = some key →
      layout.globals.get? name = some key ∨ (layout.label? key name).isSome) :
    NamesConsistent environment (trace ++ [(layout, event)]) next := by
  refine ⟨?_, ?_, fun key name => ?_, fun name key hname => ?_⟩
  · simpa only [hlabel] using h.free
  · simpa only [hlabel] using h.proper
  · rw [declarations_of_other hother]
    simpa only [Layout.addresses, hlabel] using h.counted key name
  · rw [hlabel]
    rcases hglobals name key hname with hold | hdeclared
    · exact h.owned name key hold
    · exact Option.isSome_iff_exists.mp hdeclared

/-- Names stay consistent when a label gets one more address. -/
theorem of_declaration (h : NamesConsistent environment trace layout) {key written : String}
    {size : Nat} {location : Location} {label : Label} (hcurrent : layout.current = some key)
    (hlabel : ∀ other name, next.label? other name =
      if key = other ∧ declaredName written = name then some label else layout.label? other name)
    (hfree : FreeName environment.equates environment.macros (declaredName written))
    (hproper : label.Proper (declaredName written))
    (haddresses : label.addresses.Perm
      (layout.address :: layout.addresses key (declaredName written)))
    (hglobals : ∀ name owner, next.globals.get? name = some owner →
      layout.globals.get? name = some owner ∨ key = owner ∧ declaredName written = name) :
    NamesConsistent environment
      (trace ++ [(layout, .operation (.declareLabel written) size location)]) next := by
  refine ⟨fun other name found hfound => ?_, fun other name found hfound => ?_,
    fun other name => ?_, fun name owner hname => ?_⟩
  · rw [hlabel] at hfound
    split at hfound
    case isTrue hsame => exact hsame.2 ▸ hfree
    case isFalse => exact h.free other name found hfound
  · rw [hlabel] at hfound
    split at hfound
    case isTrue hsame =>
      obtain rfl := Option.some.inj hfound
      exact hsame.2 ▸ hproper
    case isFalse => exact h.proper other name found hfound
  · have hcounted := h.counted other name
    simp only [declarations, List.filterMap_append, List.filterMap_cons, List.filterMap_nil,
      declaredAt?, hcurrent, Option.some.injEq]
    rw [Layout.addresses, hlabel]
    split
    case isTrue hsame =>
      obtain ⟨rfl, rfl⟩ := hsame
      exact (haddresses.trans (hcounted.cons _)).trans (List.perm_append_singleton _ _).symm
    case isFalse =>
      rw [List.append_nil]
      exact hcounted
  · rw [hlabel]
    split
    case isTrue => exact ⟨label, rfl⟩
    case isFalse hother =>
      exact h.owned name owner ((hglobals name owner hname).resolve_right hother)

/-- Declaring a label keeps the names consistent. -/
theorem declareLabel (h : NamesConsistent environment trace layout) {written : String}
    {size : Nat} {location place : Location}
    (hdeclared : layout.declareLabel environment place written = .ok next) :
    NamesConsistent environment
      (trace ++ [(layout, .operation (.declareLabel written) size location)]) next := by
  obtain ⟨key, segment, hcurrent, hcases⟩ := declareLabel_cases hdeclared
  obtain ⟨hkey, hsegment⟩ := requireSegment_eq_ok.mp hcurrent
  have hold : layout.label? key (declaredName written) = segment.label? (declaredName written) := by
    rw [label?, hsegment, Option.bind_some]
  -- Labels of other segments and other names are found as before.
  have hothers (change : Segment) (label : Label) (hchange : ∀ name, change.label? name =
      if declaredName written = name then some label else segment.label? name)
      (other name : String) : (layout.setSegment key change).label? other name =
        if key = other ∧ declaredName written = name then some label
        else layout.label? other name := by
    rw [label?_setCurrent hcurrent, hchange]
    by_cases hother : key = other
    · subst hother
      simp only [if_true, true_and, label?, hsegment, Option.bind_some]
    · simp only [hother, if_false, false_and]
  rcases hcases with ⟨label, hlocal, hlabel, rfl⟩ | ⟨hnew, hfree, rfl⟩
  · rw [hlabel] at hold
    have hstem : isLocal (declaredName written) = true :=
      (isLocal_declaredName written).trans hlocal
    refine h.of_declaration hkey (hothers _
      { label with addresses := insertAddress layout.address label.addresses } fun name => ?_)
      (h.free key _ label hold) ((h.proper key _ label hold).redeclared hstem layout.address) ?_
      fun name owner hname => .inl hname
    · rw [Segment.label?, Segment.redeclare, Table.get?_alter]
      split
      case isTrue hname =>
        rw [← hname, show segment.labels.get? (declaredName written) = some label from hlabel,
          Option.map_some]
      case isFalse => rfl
    · rw [Layout.addresses, hold]
      exact insertAddress_perm _ _
  · rw [hnew] at hold
    have hlabel := hothers (segment.declare (declaredName written) layout.address place)
      ⟨[layout.address], place⟩ fun name => Table.get?_put _ _ _ _
    have hproper : Label.Proper ⟨[layout.address], place⟩ (declaredName written) :=
      ⟨List.cons_ne_nil _ _, List.pairwise_singleton _ _, fun _ => ⟨_, rfl⟩⟩
    have haddresses : [layout.address].Perm
        (layout.address :: layout.addresses key (declaredName written)) := by
      rw [Layout.addresses, hold]
      exact .refl _
    rcases publish_cases (layout.setSegment key
      (segment.declare (declaredName written) layout.address place)) key (declaredName written)
      segment.globalAll with hpublish | ⟨-, hpublish⟩
    · rw [hpublish]
      exact h.of_declaration hkey hlabel hfree hproper haddresses fun name owner hname => .inl hname
    · rw [hpublish]
      refine h.of_declaration hkey hlabel hfree hproper haddresses fun name owner hname => ?_
      rw [Table.get?_put] at hname
      split at hname
      case isTrue hsame => exact .inr ⟨Option.some.inj hname, hsame⟩
      case isFalse => exact .inl hname

/-- Whatever a task defines, the names stay consistent. -/
theorem defines (h : NamesConsistent environment trace layout) {task : Task}
    (hdefines : TaskDefines environment layout next task event) :
    NamesConsistent environment (trace ++ [(layout, event)]) next := by
  cases hdefines with
  | segment calls name start size fileOffset location added =>
    obtain ⟨hnew, rfl⟩ := addSegment_eq_ok.mp added
    refine h.of_labels (by simp) (fun key other => ?_) fun _ _ => .inl
    simp only [label?, Table.get?_put]
    split
    case isTrue hkey =>
      rw [← hkey, hnew]
      rfl
    case isFalse => rfl
  | label calls name location declared => exact h.declareLabel declared
  | globalName calls name location published =>
    obtain ⟨key, hsegments, -, hglobals⟩ := setGlobal_cases published
    refine h.of_labels (by simp) (fun other found => by rw [label?, label?, hsegments]) ?_
    intro found owner hfound
    rcases hglobals with hsame | ⟨hdeclared, hput⟩
    · exact .inl (hsame ▸ hfound)
    · rw [hput, Table.get?_put] at hfound
      split at hfound
      case isTrue hname =>
        obtain rfl := Option.some.inj hfound
        exact .inr (hname ▸ hdeclared)
      case isFalse => exact .inl hfound
  | globalAll calls location published =>
    obtain ⟨key, segment, hcurrent, rfl⟩ := setGlobalAll_eq_ok published
    refine h.of_labels (by simp) (fun other name => ?_) fun _ _ => .inl
    rw [label?_setCurrent hcurrent]
    split
    case isTrue hkey =>
      rw [← hkey, label?, (requireSegment_eq_ok.mp hcurrent).2]
      rfl
    case isFalse => rfl
  | nothing task undeclared same =>
    refine h.of_labels undeclared (fun key name => ?_) fun name key hname => .inl ?_
    · rw [← label?_definitions, same, label?_definitions]
    · have hglobals : next.definitions.globals = layout.definitions.globals := by rw [same]
      exact hglobals ▸ hname

end Layout.NamesConsistent

/-- In every state that the first walk through a program comes to the names are consistent. -/
theorem WalksThrough.namesConsistent {environment : Environment} {actions : List Action}
    {trace : List (Layout × Event)} {layout : Layout} {others : List Task}
    (walk : WalksThrough environment Layout.empty (bodyTasks [] actions) trace layout others) :
    layout.NamesConsistent environment trace := by
  induction walk with
  | here =>
    exact ⟨fun _ _ _ h => (by cases h), fun _ _ _ h => (by cases h), fun _ _ => .nil,
      fun _ _ h => by cases h⟩
  | step walk advanced ih => exact ih.defines (Task.advance_defines advanced)

/-! ## All states -/

/-- Name tables stay consistent. In every state that building the lines of a main source comes to,
no name is both an equate and a macro, and equates keep their numbers from then on. In every state
that laying out the program comes to, a label is no equate, no macro and no word of the language, it
has the addresses of its declarations in ascending order, of which there is one unless it is local,
a global name leads to a segment that declares it, and segments stay from then on as they were
created. -/
theorem names_stay_consistent (search : AssetSearch) (main : SourceFile) (lines : List Line) :
    (∀ state left, BuildsTo search (.initial [main]) (lineTasks lines) state left →
      state.Apart ∧ ∀ later rest, BuildsTo search state left later rest →
        ∀ name number, state.equates.get? name = some number →
          later.equates.get? name = some number) ∧
      ∀ program, buildProgram search main lines = .ok program →
        (∀ name, program.equates.get? name = none ∨ program.macros.get? name = none) ∧
        ∀ trace layout tasks, WalksThrough (program.environment search) Layout.empty
            (bodyTasks [] program.actions) trace layout tasks →
          layout.NamesConsistent (program.environment search) trace ∧
          ∀ more later rest,
            WalksThrough (program.environment search) layout tasks more later rest →
            ∀ key segment, layout.created? key = some segment →
              later.created? key = some segment := by
  have hinitial : (BuildState.initial [main]).Apart := fun _ => .inl rfl
  refine ⟨fun state left hbuilds => ?_, fun program hbuilt => ⟨?_, ?_⟩⟩
  · exact ⟨hbuilds.apart hinitial, fun later rest hlater name number => hlater.get?_equates⟩
  · obtain ⟨state, hbuilds, hequates, hmacros, -⟩ := buildProgram_buildsTo hbuilt
    rw [hequates, hmacros]
    exact hbuilds.apart hinitial
  · intro trace layout tasks walk
    exact ⟨walk.namesConsistent, fun more later rest hlater key segment => hlater.created?⟩

/-- An equate, a macro, a global label and a local label that is declared twice. -/
theorem names_stay_consistent_declaredTwice :
    ∃ (main : SourceFile) (run : AssemblyRun ⟨.ofTable [], []⟩ main) (state : BuildState)
      (trace : List (Layout × Event)) (tasks : List Task),
      main.text = "k = 2\nm: .macro\n .db k\n .endmacro\n .segment \"c\",0x8000,9,0\n .c\n" ++
        "@l: nop\n .global g\ng: m\n@l: .db k\n" ∧
      BuildsTo ⟨.ofTable [], []⟩ (.initial [main]) (lineTasks run.source.lines) state [] ∧
      state.Apart ∧
      WalksThrough (run.program.environment ⟨.ofTable [], []⟩) Layout.empty
        (bodyTasks [] run.program.actions) trace run.layout tasks ∧
      run.layout.NamesConsistent (run.program.environment ⟨.ofTable [], []⟩) trace ∧
      run.program.equates.has "k" = true ∧ run.program.macros.has "m" = true ∧
      run.layout.globals.get? "g" = some "C" ∧
      run.layout.addresses "C" "@l" = [0x8000, 0x8002] := by
  let main : SourceFile :=
    ⟨"m.s", "k = 2\nm: .macro\n .db k\n .endmacro\n .segment \"c\",0x8000,9,0\n .c\n" ++
      "@l: nop\n .global g\ng: m\n@l: .db k\n"⟩
  obtain ⟨run, hrun⟩ : ∃ run : AssemblyRun ⟨.ofTable [], []⟩ main, (run.program.equates.has "k" &&
      run.program.macros.has "m" && run.layout.globals.get? "g" == some "C" &&
      run.layout.addresses "C" "@l" == [0x8000, 0x8002]) = true :=
    AssemblyRun.exists_of_any _ (by decide +kernel)
  simp only [Bool.and_eq_true, beq_iff_eq] at hrun
  obtain ⟨⟨⟨hequate, hmacro⟩, hglobal⟩, haddresses⟩ := hrun
  obtain ⟨state, hstate, -⟩ := buildProgram_buildsTo run.built
  obtain ⟨-, trace, -, walk⟩ := layoutProgram_firstWalk run.laidOut
  obtain ⟨hbuilding, hlaying⟩ := names_stay_consistent ⟨.ofTable [], []⟩ main run.source.lines
  have hthrough := walk.walksThrough
  exact ⟨main, run, state, trace, [], rfl, hstate, (hbuilding state [] hstate).1, hthrough,
    ((hlaying run.program run.built).2 trace run.layout [] hthrough).1, hequate, hmacro, hglobal,
    haddresses⟩

end Asm65816
