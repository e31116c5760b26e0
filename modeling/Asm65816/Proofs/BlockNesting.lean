import Asm65816.Proofs.BindConflicts
import Asm65816.Proofs.BlockBodies
import Asm65816.Proofs.IncludeTermination

/-!
# Block directives nest, and nothing is reordered

The lines of a program with its includes in place are a row of labels and statements. Building it
goes through this row from left to right: a block directive has to have its turn among the open
blocks, and everything else is gathered in the body that is open there. So a program that is built
has well nested blocks, and its bodies hold what the row says in the order of the row.
-/

namespace Asm65816

/-! ## The row of labels and statements -/

/-- A label that is declared, or a statement with the label of its line and where the line
stands. -/
inductive SourceItem where
  | label (name : String) (location : Location)
  | statement (label : Option (Spanned String)) (line : Location) (statement : Statement)

/-- The block directive that an item is. -/
def SourceItem.sign? : SourceItem → Option BlockSign
  | label _ _ => none
  | statement _ _ found => found.blockSign?

/-- The block directives among some items. -/
def blockSigns (items : List SourceItem) : List BlockSign := items.filterMap SourceItem.sign?

/-- The label of a line, unless it names a macro. -/
def labelItems (location : Location) (label : Option (Spanned String))
    (statements : List Statement) : List SourceItem :=
  if statements.head?.elim false fun first => first.isNamed ".MACRO" then []
  else label.toList.map fun label => .label label.node (location.narrow label.span)

namespace BuildTask

/-- The items that a task begins with. -/
def items : BuildTask → List SourceItem
  | line found =>
    match found.body with
    | .equate _ _ => []
    | .statements label statements => labelItems found.location label statements
  | statement label location found => [.statement label location found]

/-- A task, when so many sources were read before it, how many were read after its first part, and
the tasks that it leaves. -/
inductive Opens (search : AssetSearch) (count : Nat) : BuildTask → Nat → List BuildTask → Prop where
  | equate {line : Line} {name : Spanned String} {value : Expr}
      (body : line.body = .equate name value) : Opens search count (.line line) count []
  | statements {line : Line} {label : Option (Spanned String)} {statements : List Statement}
      (body : line.body = .statements label statements) :
      Opens search count (.line line) count (statementTasks label line.location statements)
  | statement {label : Option (Spanned String)} {location : Location} {statement : Statement}
      (stays : statement.includes = false) :
      Opens search count (.statement label location statement) count []
  | included {label : Option (Spanned String)} {location : Location} {statement : Statement}
      {path text : String} {asset : Asset} {read : SourceLines}
      (includes : statement.includes = true)
      (named : expectFileName "INCLUDE" statement.operands = .ok path)
      (located : search.store.locate search.directories path = .ok asset)
      (decoded : asset.text = .ok text)
      (fresh : isBeingRead (location.narrow statement.span) asset.path = false)
      (lines : readSource count asset.path text
        (location.includedFrom ++ [⟨location.file, location.line⟩]) = .ok read) :
      Opens search count (.statement label location statement) (count + 1) (lineTasks read.lines)

theorem Opens.unique {search : AssetSearch} {count first second : Nat} {task : BuildTask}
    {more more' : List BuildTask} (h : task.Opens search count first more)
    (h' : task.Opens search count second more') : first = second ∧ more = more' := by
  cases h with
  | equate body =>
    cases h' with
    | equate body' => exact ⟨rfl, rfl⟩
    | statements body' => cases body.symm.trans body'
  | statements body =>
    cases h' with
    | equate body' => cases body.symm.trans body'
    | statements body' =>
      cases body.symm.trans body'
      exact ⟨rfl, rfl⟩
  | statement stays =>
    cases h' with
    | statement stays' => exact ⟨rfl, rfl⟩
    | included includes => cases stays.symm.trans includes
  | included includes named located decoded fresh lines =>
    cases h' with
    | statement stays => cases stays.symm.trans includes
    | included includes' named' located' decoded' fresh' lines' =>
      cases named.symm.trans named'
      cases located.symm.trans located'
      cases decoded.symm.trans decoded'
      cases lines.symm.trans lines'
      exact ⟨rfl, rfl⟩

end BuildTask

/-- The items of tasks with all includes in place, when so many sources were read before. -/
inductive Expands (search : AssetSearch) : Nat → List BuildTask → List SourceItem → Prop where
  | done (count : Nat) : Expands search count [] []
  | step {count later : Nat} {task : BuildTask} {more tasks : List BuildTask}
      {items : List SourceItem} (opened : task.Opens search count later more)
      (rest : Expands search later (more ++ tasks) items) :
      Expands search count (task :: tasks) (task.items ++ items)

/-- There is only one way to put the includes in place. -/
theorem Expands.unique {search : AssetSearch} {count : Nat} {tasks : List BuildTask}
    {items items' : List SourceItem} (h : Expands search count tasks items)
    (h' : Expands search count tasks items') : items = items' := by
  induction h generalizing items' with
  | done count =>
    cases h'
    rfl
  | step opened rest ih =>
    cases h' with
    | step opened' rest' =>
      obtain ⟨rfl, rfl⟩ := opened.unique opened'
      rw [ih rest']

/-! ## What the items ask for -/

/-- Whether an action stands for itself and belongs to a place. -/
def Action.IsSingle (location : Location) : Action → Prop
  | .operation _ found | .callMacro _ _ found => found = location
  | .conditional _ _ | .argumentLoop _ _ => False

theorem Action.IsSingle.enclosed {location : Location} {action : Action}
    (h : action.IsSingle location) (around : List Enclosure) :
    action.enclosed around = [⟨around, action⟩] := by
  cases action with
  | operation | callMacro => rw [Action.enclosed]
  | conditional | argumentLoop => cases h

/-- The actions of an item that is no block directive: a label declares itself, `.INCLUDE` leaves a
mark, `.GLOBAL` has an action for each name, and every other statement has one action, which is the
one it adds to a program outside of all blocks. -/
inductive SourceItem.Gives (search : AssetSearch) : SourceItem → List Action → Prop where
  | label (name : String) (location : Location) :
      Gives search (.label name location) [.operation (.declareLabel name) location]
  | included {label : Option (Spanned String)} {line : Location} {statement : Statement}
      {path : String} (includes : statement.includes = true)
      (named : expectFileName "INCLUDE" statement.operands = .ok path) :
      Gives search (.statement label line statement)
        [.operation (.includeSource path) (line.narrow statement.span)]
  | globals {label : Option (Spanned String)} {line : Location} {statement : Statement}
      {names : List Name} (named : statement.directive? = some "GLOBAL")
      (operands : statement.operands = names.map Expr.name) :
      Gives search (.statement label line statement) (names.map fun name =>
        .operation (.setGlobal name.ident) (line.narrow statement.span))
  | single {label : Option (Spanned String)} {line : Location} {statement : Statement}
      {action : Action} {state next : BuildState} (stays : statement.includes = false)
      (notGlobal : statement.directive? ≠ some "GLOBAL")
      (outside : state.captures = [])
      (built : buildStatement search none label line state statement = .ok next)
      (adds : next.actions = state.actions ++ [action])
      (isSingle : action.IsSingle (line.narrow statement.span)) :
      Gives search (.statement label line statement) [action]

/-- The actions of items in their order, each inside of the bodies that are open where its item
stands. -/
inductive ItemsGive (search : AssetSearch) :
    List Enclosure → List SourceItem → List EnclosedAction → Prop where
  | nil (around : List Enclosure) : ItemsGive search around [] []
  | block {around : List Enclosure} {label : Option (Spanned String)} {line : Location}
      {statement : Statement} {sign : BlockSign} {items : List SourceItem}
      {enclosed : List EnclosedAction} (isBlock : statement.blockSign? = some sign)
      (rest : ItemsGive search
        (sign.after label statement.operands (line.narrow statement.span) around) items enclosed) :
      ItemsGive search around (.statement label line statement :: items) enclosed
  | other {around : List Enclosure} {item : SourceItem} {actions : List Action}
      {items : List SourceItem} {enclosed : List EnclosedAction} (noBlock : item.sign? = none)
      (gives : item.Gives search actions) (rest : ItemsGive search around items enclosed) :
      ItemsGive search around (item :: items) (actions.map (EnclosedAction.mk around) ++ enclosed)

/-! ## Building the items -/

/-- What building does with the items of a task: the sources that were read after it, what it
gathers, and the bodies that it leads into. -/
structure BuildState.Takes (search : AssetSearch) (next : BuildState) (items : List SourceItem)
    (later : Nat) (gathered : List EnclosedAction) (around : List Enclosure)
    (found : List EnclosedAction) (inside : List Enclosure) : Prop where
  gathers : ∃ parts, next.Gathers later parts (gathered ++ found) inside
  turns : BlockSign.turnAll (blockSigns items) (around.map Enclosure.block) =
    some (inside.map Enclosure.block)
  gives : ∀ rest enclosed, ItemsGive search inside rest enclosed →
    ItemsGive search around (items ++ rest) (found ++ enclosed)

section Taking

variable {search : AssetSearch} {state next : BuildState} {count : Nat}
  {parts : List ProgramPart} {gathered : List EnclosedAction} {around : List Enclosure}

/-- Nothing is gathered where there are no items. -/
theorem BuildState.Gathers.takes_nothing (h : state.Gathers count parts gathered around) :
    state.Takes search [] count gathered around [] around := by
  refine ⟨⟨parts, ?_⟩, rfl, fun rest enclosed hrest => hrest⟩
  rwa [List.append_nil]

/-- The actions of an item are gathered in the bodies that are open. -/
theorem SourceItem.Gives.takes {item : SourceItem} {actions : List Action} {later : Nat}
    (hgives : item.Gives search actions) (hitem : item.sign? = none)
    (h : ∃ parts, next.Gathers later parts
      (gathered ++ actions.map (EnclosedAction.mk around)) around) :
    next.Takes search [item] later gathered around (actions.map (EnclosedAction.mk around))
      around := by
  refine ⟨h, ?_, fun rest enclosed hrest => .other hitem hgives hrest⟩
  rw [blockSigns, List.filterMap_cons_none hitem]
  rfl

/-- A single action is gathered in the bodies that are open. -/
theorem SourceItem.Gives.takes_single {item : SourceItem} {action : Action} {location : Location}
    (hgives : item.Gives search [action]) (hitem : item.sign? = none)
    (hsingle : action.IsSingle location) (h : state.Gathers count parts gathered around) :
    (state.append action).Takes search [item] count gathered around [⟨around, action⟩] around := by
  obtain ⟨parts', happended⟩ := h.append action
  rw [hsingle.enclosed] at happended
  exact hgives.takes hitem ⟨parts', happended⟩

/-- A label is declared in the bodies that are open. -/
theorem BuildState.Gathers.declare (h : state.Gathers count parts gathered around)
    (search : AssetSearch) (location : Location) (label : Option (Spanned String))
    (statements : List Statement) :
    ∃ found, (state.declare location label statements).Takes search
      (labelItems location label statements) count gathered around found around := by
  unfold BuildState.declare labelItems
  split
  case h_1 =>
    refine ⟨[], ?_⟩
    rw [Option.toList_none, List.map_nil, ite_self]
    exact h.takes_nothing
  case h_2 label =>
    split
    case isTrue => exact ⟨[], h.takes_nothing⟩
    case isFalse =>
      have hsame : { state with labels := label.node :: state.labels }.Gathers count parts gathered
          around := h.of_same rfl rfl rfl rfl
      exact ⟨_, (SourceItem.Gives.label label.node _).takes_single rfl rfl hsame⟩

/-- An included file is marked in the bodies that are open. -/
theorem BuildState.Gathers.openInclude (h : state.Gathers count parts gathered around)
    {line : Location} {statement : Statement} {lines : List Line}
    (hincludes : statement.includes = true)
    (hopened : Asm65816.openInclude search statement.operands (line.narrow statement.span) state =
      .ok (next, lines)) (label : Option (Spanned String)) :
    (BuildTask.statement label line statement).Opens search count (count + 1) (lineTasks lines) ∧
      ∃ found, next.Takes search [.statement label line statement] (count + 1) gathered around
        found around := by
  obtain ⟨path, asset, text, read, hpath, hasset, htext, hfresh, hread, rfl, rfl⟩ :=
    openInclude_eq_ok.mp hopened
  obtain ⟨hcount, hbodies, hactions, hmacros, hdistinct, horder⟩ := h
  rw [hcount] at hread
  have hitem : (SourceItem.statement label line statement).sign? = none := by
    have hdirective : statement.directive? = some "INCLUDE" := by
      simp only [Statement.includes, Bool.and_eq_true, beq_iff_eq] at hincludes
      exact hincludes.1
    rw [SourceItem.sign?, Statement.blockSign?, hdirective]
    rfl
  have hmore : BuildState.Gathers { state with
      sources := state.sources ++ [⟨asset.path, text⟩]
      warnings := state.warnings ++ read.warnings } (count + 1) parts gathered around := by
    refine ⟨?_, hbodies, hactions, hmacros, hdistinct, horder⟩
    rw [List.length_append, hcount]
    rfl
  exact ⟨.included hincludes hpath hasset htext hfresh hread, _,
    (SourceItem.Gives.included hincludes hpath).takes_single hitem rfl hmore⟩

/-- The effect of a statement that adds an action adds it outside of all blocks as well. -/
theorem takes_of_adds {label : Option (Spanned String)} {line : Location} {statement : Statement}
    {action : Action} (h : state.Gathers count parts gathered around)
    (hincludes : statement.includes = false) (hitem : statement.blockSign? = none)
    (hglobal : statement.directive? ≠ some "GLOBAL")
    (hsingle : action.IsSingle (line.narrow statement.span))
    (hbuilt : ∀ other : BuildState, other.equates = state.equates → other.macros = state.macros →
      buildStatement search none label line other statement = .ok (other.append action)) :
    (state.append action).Takes search [.statement label line statement] count gathered around
      [⟨around, action⟩] around :=
  (SourceItem.Gives.single hincludes hglobal rfl (hbuilt { state with captures := [] } rfl rfl) rfl
    hsingle).takes_single hitem hsingle h

/-- A statement that includes nothing is taken by the builder. -/
theorem BuildState.Gathers.statement (h : state.Gathers count parts gathered around)
    {label : Option (Spanned String)} {line : Location} {statement : Statement}
    (hincludes : statement.includes = false)
    (hbuilt : buildStatement search none label line state statement = .ok next) :
    ∃ found inside, next.Takes search [.statement label line statement] count gathered around
      found inside := by
  obtain ⟨effect, happly, hfits, -, hother⟩ := buildStatement_fits hincludes hbuilt
  have hagain {other last : BuildState} (hequates : other.equates = state.equates)
      (hmacros : other.macros = state.macros)
      (hlast : effect.apply other (line.narrow statement.span) = .ok last) :
      buildStatement search none label line other statement = .ok last :=
    hother hequates (fun name => by rw [hmacros]) rfl rfl hlast
  cases hsign : statement.blockSign? with
  | some sign =>
    obtain ⟨⟨parts', hnext⟩, hturn⟩ := h.block hfits hsign happly
    refine ⟨[], _, ⟨parts', ?_⟩, ?_, fun rest enclosed hrest => .block hsign hrest⟩
    · rwa [List.append_nil]
    · have hsigns : blockSigns [.statement label line statement] = [sign] :=
        List.filterMap_cons_some hsign
      rw [hsigns, BlockSign.turnAll_cons hturn]
      rfl
  | none =>
    cases hfits with
    | add noBlock notGlobal =>
      cases happly
      exact ⟨_, around, takes_of_adds h hincludes hsign notGlobal rfl
        fun other hequates hmacros => hagain hequates hmacros rfl⟩
    | call plain =>
      cases happly
      exact ⟨_, around, takes_of_adds h hincludes hsign (by simp [plain]) rfl
        fun other hequates hmacros => hagain hequates hmacros rfl⟩
    | declareGlobals named =>
      obtain ⟨names, hnames, parts', hnext⟩ := h.declareGlobals happly
      refine ⟨_, around, (SourceItem.Gives.globals named hnames).takes hsign ⟨parts', ?_⟩⟩
      rwa [List.map_map]
    | _ named =>
      rw [Statement.blockSign?, named] at hsign
      cases hsign

/-- A task is taken by the builder, and leaves what it leaves to any state that read as many
sources. -/
theorem BuildState.Gathers.advance (h : state.Gathers count parts gathered around)
    {task : BuildTask} {more : List BuildTask}
    (hadvanced : task.advance search state = .ok (next, more)) :
    ∃ later found inside, task.Opens search count later more ∧
      next.Takes search task.items later gathered around found inside := by
  cases task with
  | line line =>
    cases hbody : line.body with
    | equate name value =>
      obtain ⟨hdefined, rfl⟩ := (advance_equate hbody).mp hadvanced
      refine ⟨count, [], around, .equate hbody, ?_⟩
      rw [BuildTask.items, hbody]
      exact (h.defineEquate hdefined).takes_nothing
    | statements label statements =>
      rw [advance_statements hbody] at hadvanced
      cases hadvanced
      obtain ⟨found, htakes⟩ := h.declare search line.location label statements
      refine ⟨count, found, around, .statements hbody, ?_⟩
      rw [BuildTask.items, hbody]
      exact htakes
  | statement label location statement =>
    cases hincludes : statement.includes with
    | true =>
      obtain ⟨lines, hopened, rfl⟩ := (advance_include hincludes).mp hadvanced
      obtain ⟨hopens, found, htakes⟩ := h.openInclude hincludes hopened label
      exact ⟨count + 1, found, around, hopens, htakes⟩
    | false =>
      obtain ⟨hbuilt, rfl⟩ := (advance_statement hincludes).mp hadvanced
      obtain ⟨found, inside, htakes⟩ := h.statement hincludes hbuilt
      exact ⟨count, found, inside, .statement hincludes, htakes⟩

theorem blockSigns_append (first second : List SourceItem) :
    blockSigns (first ++ second) = blockSigns first ++ blockSigns second :=
  List.filterMap_append

/-- Building to the end takes all items, one after the other. -/
theorem BuildsTo.takes {tasks : List BuildTask} (h : BuildsTo search state tasks next [])
    (hstate : state.Gathers count parts gathered around) :
    ∃ items later found inside, Expands search count tasks items ∧
      next.Takes search items later gathered around found inside := by
  generalize hleft : ([] : List BuildTask) = left at h
  induction h generalizing count parts gathered around with
  | here state tasks =>
    subst hleft
    exact ⟨[], count, [], around, .done count, hstate.takes_nothing⟩
  | step advanced rest ih =>
    obtain ⟨later, first, mid, hopens, ⟨parts', hmid⟩, hturns, hgives⟩ := hstate.advance advanced
    obtain ⟨items, last, second, inside, hexpands, ⟨parts'', hlast⟩, hturns', hgives'⟩ :=
      ih hmid hleft
    refine ⟨_, last, first ++ second, inside, .step hopens hexpands, ⟨parts'', ?_⟩, ?_, ?_⟩
    · rwa [List.append_assoc] at hlast
    · rw [blockSigns_append, BlockSign.turnAll_append hturns, hturns']
    · intro rest enclosed hrest
      rw [List.append_assoc, List.append_assoc]
      exact hgives _ _ (hgives' _ _ hrest)

/-! ## Refusals -/

/-- Whether a fault is about the nesting of blocks. -/
def Fault.isBlock : Fault → Bool
  | .block _ => true
  | _ => false

/-- A failure whose fault is about the nesting of blocks. -/
def BuildFailure.isBlock (error : BuildFailure) : Bool := error.failure.fault.isBlock

theorem Fault.not_block_of_isOfWords (fault : Fault) (h : fault.isOfWords = true) :
    fault.isBlock = false := by
  cases fault <;> first | rfl | cases h

theorem BuildState.run_accepts {α : Type} (state : BuildState) (location : Location)
    {step : Except Fault α} (h : Avoids Fault.isBlock step) :
    Avoids BuildFailure.isBlock (state.run location step) :=
  h.mapError fun _ hfault => hfault

/-- Beginning a macro outside of every block is not refused because of blocks. -/
theorem BuildState.beginMacro_accepts (hcaptures : state.captures = [])
    (label : Option (Spanned String)) (variadic : Bool) (operands : List Expr)
    (location : Location) :
    Avoids Fault.isBlock (state.beginMacro label variadic operands location) := by
  unfold BuildState.beginMacro
  split
  case h_1 => exact .error rfl
  case h_2 =>
    refine .bind ((parameterNames_words _).avoids Fault.not_block_of_isOfWords) fun _ => ?_
    split
    case h_1 hfault => exact .error (Fault.not_block_of_isOfWords _ (nameFault_words hfault))
    case h_2 =>
      rw [hcaptures]
      exact .ok _

/-- A directive that has its turn among the open blocks is not refused because of them. -/
theorem BuildState.directive_accepts {name : String}
    (hturn : ∀ sign, BlockSign.ofDirective? name = some sign →
      sign.turn (state.captures.map fun capture => capture.enclosure.block) ≠ none)
    (label : Option (Spanned String)) (ellipsis : Bool) (operands : List Expr)
    (location : Location) :
    Avoids Fault.isBlock (state.directive name label ellipsis operands location) := by
  refine state.directive_avoids Fault.not_block_of_isOfWords name label ellipsis operands location
    ?_ ?_ ?_ ?_ ?_
  · rintro rfl
    have hbegin := hturn .beginMacro rfl
    refine beginMacro_accepts ?_ _ _ _ _
    cases hcaptures : state.captures with
    | nil => rfl
    | cons capture rest =>
      rw [hcaptures] at hbegin
      exact absurd rfl hbegin
  · rintro rfl
    have hend := hturn .endMacro rfl
    refine .ite (.error rfl) ?_
    cases hcaptures : state.captures with
    | nil =>
      rw [hcaptures] at hend
      exact absurd rfl hend
    | cons capture rest =>
      rw [hcaptures] at hend
      cases capture with
      | macroBody => exact .ok _
      | conditional arms condition => cases condition <;> exact absurd rfl hend
      | argumentLoop => exact absurd rfl hend
  · intro hname condition
    have hnext : ∃ sign : BlockSign, (sign = .elseIf ∨ sign = .otherwise) ∧
        sign.turn (state.captures.map fun capture => capture.enclosure.block) ≠ none := by
      rcases hname with rfl | rfl
      · exact ⟨.elseIf, .inl rfl, hturn .elseIf rfl⟩
      · exact ⟨.otherwise, .inr rfl, hturn .otherwise rfl⟩
    obtain ⟨sign, hsign, hnext⟩ := hnext
    unfold BuildState.nextArm
    cases hcaptures : state.captures with
    | nil =>
      rw [hcaptures] at hnext
      rcases hsign with rfl | rfl <;> exact absurd rfl hnext
    | cons capture rest =>
      rw [hcaptures] at hnext
      cases capture with
      | conditional arms current =>
        cases current with
        | some current => exact .ok _
        | none => rcases hsign with rfl | rfl <;> exact absurd rfl hnext
      | macroBody | argumentLoop => rcases hsign with rfl | rfl <;> exact absurd rfl hnext
  · rintro rfl
    have hend := hturn .endIf rfl
    unfold BuildState.endConditional
    cases hcaptures : state.captures with
    | nil =>
      rw [hcaptures] at hend
      exact absurd rfl hend
    | cons capture rest =>
      rw [hcaptures] at hend
      cases capture with
      | conditional => exact .ok _
      | macroBody | argumentLoop => exact absurd rfl hend
  · rintro rfl
    have hend := hturn .endLoop rfl
    unfold BuildState.endLoop
    cases hcaptures : state.captures with
    | nil =>
      rw [hcaptures] at hend
      exact absurd rfl hend
    | cons capture rest =>
      rw [hcaptures] at hend
      cases capture with
      | argumentLoop => exact .ok _
      | conditional arms condition => cases condition <;> exact absurd rfl hend
      | macroBody => exact absurd rfl hend

/-- A statement that has its turn among the open blocks is not refused because of them. -/
theorem buildStatement_accepts {label : Option (Spanned String)} {line : Location}
    {statement : Statement} (hincludes : statement.includes = false)
    (hturn : ∀ sign, statement.blockSign? = some sign →
      sign.turn (state.captures.map fun capture => capture.enclosure.block) ≠ none) :
    Avoids BuildFailure.isBlock (buildStatement search none label line state statement) := by
  unfold buildStatement
  dsimp only
  split
  case isTrue => exact state.run_accepts _ (.error rfl)
  case isFalse hellipsis =>
    split
    case h_1 rest hname =>
      split
      case h_1 hupper =>
        have hincluded : statement.includes = true := by
          simp only [Statement.includes, Statement.directive?, hname, hupper,
            Statement.misplacesEllipsis, hellipsis]
          rfl
        cases hincludes.symm.trans hincluded
      case h_2 =>
        refine state.run_accepts _ (BuildState.directive_accepts (fun sign hsign => ?_) _ _ _ _)
        refine hturn sign ?_
        rw [Statement.blockSign?, Statement.directive?, hname]
        exact hsign
    case h_2 =>
      exact state.run_accepts _ ((state.plainStatement_words _ _).avoids
        Fault.not_block_of_isOfWords)

theorem openInclude_accepts (operands : List Expr) (location : Location) :
    Avoids BuildFailure.isBlock (openInclude search operands location state) := by
  have hasset {α : Type} (path : String) (step : Except AssetError α) :
      Avoids Fault.isBlock (step.mapError (Fault.ofAsset path)) := by
    intro fault h
    obtain ⟨cause, -, rfl⟩ := mapError_eq_error.mp h
    exact Fault.not_block_of_isOfWords _ (ofAsset_words path cause)
  refine .bind (state.run_accepts _ ((expectFileName_words _ _).avoids
    Fault.not_block_of_isOfWords)) fun path => ?_
  refine .bind (state.run_accepts _ (hasset _ _)) fun asset => ?_
  refine .bind (state.run_accepts _ (hasset _ _)) fun text => ?_
  refine .ite (state.run_accepts _ (.error rfl)) ?_
  refine .bind (BuildState.run_accepts _ _ fun fault h => ?_) fun read => .ok _
  obtain ⟨reports, -, rfl⟩ := mapError_eq_error.mp h
  rfl

theorem BuildState.defineEquate_accepts (name : String) (value : Expr) :
    Avoids Fault.isBlock (state.defineEquate name value) := by
  refine .ite (.error rfl) (.ite (.error rfl) ?_)
  split
  case h_1 hfault => exact .error (Fault.not_block_of_isOfWords _ (nameFault_words hfault))
  case h_2 =>
    refine .bind (bindEquates_avoids _ _ _ _) fun bound => ?_
    split
    case h_1 => exact .ok _
    case h_2 => exact .unlessTrap rfl rfl

/-- A task whose directive has its turn is not refused because of the open blocks. -/
theorem BuildState.Gathers.advance_accepts (h : state.Gathers count parts gathered around)
    {task : BuildTask} {last : List OpenBlock}
    (hturns : BlockSign.turnAll (blockSigns task.items) (around.map Enclosure.block) = some last) :
    Avoids BuildFailure.isBlock (task.advance search state) := by
  cases task with
  | line line =>
    cases hbody : line.body with
    | equate name value =>
      simp only [BuildTask.advance, hbody]
      exact .bind (state.run_accepts _ (defineEquate_accepts _ _)) fun _ => .ok _
    | statements label statements =>
      rw [advance_statements hbody]
      exact .ok _
  | statement label location statement =>
    cases hincludes : statement.includes with
    | true =>
      simp only [BuildTask.advance, hincludes, if_true]
      exact .bind (openInclude_accepts _ _) fun _ => .ok _
    | false =>
      simp only [BuildTask.advance, hincludes, Bool.false_eq_true, if_false]
      refine .bind (buildStatement_accepts hincludes fun sign hsign hnone => ?_) fun _ => .ok _
      have hsigns : blockSigns [.statement label location statement] = [sign] :=
        List.filterMap_cons_some hsign
      rw [BuildTask.items, hsigns, BlockSign.turnAll, List.foldlM_cons, ← h.bodies,
        List.map_map] at hturns
      rw [show Enclosure.block ∘ Capture.enclosure =
        fun capture => capture.enclosure.block from rfl, hnone] at hturns
      cases hturns

/-- Where every directive has its turn, nothing is refused because of blocks. -/
theorem BuildEnds.accepts {tasks : List BuildTask} {outcome : Except BuildFailure BuildState}
    (h : BuildEnds search state tasks outcome) (hstate : state.Gathers count parts gathered around)
    {items : List SourceItem} (hitems : Expands search count tasks items) {last : List OpenBlock}
    (hturns : BlockSign.turnAll (blockSigns items) (around.map Enclosure.block) = some last) :
    Avoids BuildFailure.isBlock outcome := by
  induction h generalizing count parts gathered around items with
  | done state => exact .ok _
  | fail failed tasks =>
    cases hitems with
    | step opened rest =>
      rw [blockSigns_append, BlockSign.turnAll, List.foldlM_append] at hturns
      obtain ⟨mid, hmid, -⟩ := Option.bind_eq_some_iff.mp hturns
      exact .error (hstate.advance_accepts hmid _ failed)
  | step advanced rest ih =>
    cases hitems with
    | step opened hrest =>
      obtain ⟨later, found, inside, hopens, ⟨parts', hnext⟩, hfirst, -⟩ := hstate.advance advanced
      obtain ⟨rfl, rfl⟩ := hopens.unique opened
      rw [blockSigns_append, BlockSign.turnAll_append hfirst] at hturns
      exact ih hnext hrest hturns

end Taking

/-! ## Whole programs -/

/-- A program that is built has the items of its lines: each directive has its turn and no block is
left open, and the parts of the program hold the actions of the items. -/
theorem buildProgram_items {search : AssetSearch} {main : SourceFile} {lines : List Line}
    {program : Program} (h : buildProgram search main lines = .ok program) :
    ∃ items, Expands search 1 (lineTasks lines) items ∧ WellNested (blockSigns items) ∧
      ∃ parts : List ProgramPart, program.actions = parts.filterMap ProgramPart.action? ∧
        program.macros = parts.filterMap ProgramPart.definition? ∧
        ItemsGive search [] items (parts.flatMap ProgramPart.enclosed) := by
  obtain ⟨last, hbuilt, h⟩ := bind_eq_ok.mp h
  split at h
  case h_1 => cases BuildState.run_eq_ok.mp h
  case h_2 hcaptures =>
    obtain rfl := pure_eq_ok.mp h
    have hbuilds := buildLines_followed search _ lines _ last hbuilt
    obtain ⟨items, later, found, inside, hexpands, ⟨parts, hlast⟩, hturns, hgives⟩ :=
      hbuilds.takes (BuildState.gathers_initial [main])
    obtain ⟨-, hbodies, hactions, ⟨pending, hpending, hmacros⟩, -, horder⟩ := hlast
    rw [hcaptures] at hbodies horder
    subst hbodies
    cases hpending
    refine ⟨items, hexpands, wellNested_iff_turnAll.mpr hturns, parts, hactions, ?_, ?_⟩
    · rw [hmacros, List.append_nil]
    · rw [enclosedCaptures, List.append_nil, List.nil_append] at horder
      rw [horder, ← List.append_nil items, ← List.append_nil found]
      exact hgives [] [] (.nil [])

/-- Block directives are accepted exactly when they are well nested, and nothing is reordered. A
program that is built has well nested block directives, with its includes in place, and its actions
and macros are parts that hold, in the order of the source and each in the bodies around it, the
action of each label, of each statement that is no block directive, of each name that is made global
and of each include. A program whose block directives are not well nested is refused. And a program
whose block directives are well nested is never refused because of them. -/
theorem blocks_nest (search : AssetSearch) (main : SourceFile) (lines : List Line) :
    (∀ program, buildProgram search main lines = .ok program →
      ∃ items, Expands search 1 (lineTasks lines) items ∧ WellNested (blockSigns items) ∧
        ∃ parts : List ProgramPart, program.actions = parts.filterMap ProgramPart.action? ∧
          program.macros = parts.filterMap ProgramPart.definition? ∧
          ItemsGive search [] items (parts.flatMap ProgramPart.enclosed)) ∧
    (∀ items, Expands search 1 (lineTasks lines) items → ¬WellNested (blockSigns items) →
      ∃ failure, buildProgram search main lines = .error failure) ∧
    ∀ read items failure, readSource 0 main.name main.text [] = .ok read → lines = read.lines →
      Expands search 1 (lineTasks lines) items → WellNested (blockSigns items) →
      buildProgram search main lines = .error failure → failure.isBlock = false := by
  refine ⟨fun program => buildProgram_items, fun items hitems hnested => ?_, ?_⟩
  · cases hbuilt : buildProgram search main lines with
    | error failure => exact ⟨failure, rfl⟩
    | ok program =>
      obtain ⟨found, hfound, hwell, -⟩ := buildProgram_items hbuilt
      rw [hfound.unique hitems] at hwell
      exact absurd hwell hnested
  · rintro read items failure hread rfl hitems hnested hfailed
    have hends := buildLines_ends (includeCandidates_covers search main.text)
      (by simpa using includeCandidates_length search main.text)
      (fun line => mainLines_lead hread) (.initial [main])
    rcases bind_eq_error.mp hfailed with hlines | ⟨last, hlines, hopen⟩
    · exact hends.accepts (BuildState.gathers_initial [main]) hitems hnested.turnAll failure hlines
    · -- All lines are built, and no block is open behind them.
      obtain ⟨found, later, enclosed, inside, hfound, ⟨parts, hlast⟩, hturns, -⟩ :=
        (buildLines_followed search _ _ _ last hlines).takes (BuildState.gathers_initial [main])
      rw [hfound.unique hitems] at hturns
      have hinside : inside = [] :=
        List.map_eq_nil_iff.mp (Option.some.inj (hturns.symm.trans hnested.turnAll))
      have hcaptures : last.captures = [] := by
        rw [← List.map_eq_nil_iff, hlast.bodies, hinside]
      rw [hcaptures] at hopen
      cases hopen

/-- A macro with a loop inside of an arm, and a label and a call behind it. -/
theorem blocks_nest_macroWithArms :
    ∃ (main : SourceFile) (read : SourceLines) (program : Program),
      main.text = "m: .macro a\n .if a\n .valoop\n nop\n .endvaloop\n .else\n .endif\n" ++
        " .endmacro\nl: m 1\n" ∧
      readSource 0 main.name main.text [] = .ok read ∧
      buildProgram ⟨.ofPaths [], []⟩ main read.lines = .ok program ∧
      program.actions.length = 2 ∧ program.macros.map Prod.fst = ["m"] ∧
      ∃ items, Expands ⟨.ofPaths [], []⟩ 1 (lineTasks read.lines) items ∧
        WellNested (blockSigns items) ∧
        ∃ parts : List ProgramPart, program.actions = parts.filterMap ProgramPart.action? ∧
          program.macros = parts.filterMap ProgramPart.definition? ∧
          ItemsGive ⟨.ofPaths [], []⟩ [] items (parts.flatMap ProgramPart.enclosed) := by
  let main : SourceFile :=
    ⟨"main.s", "m: .macro a\n .if a\n .valoop\n nop\n .endvaloop\n .else\n .endif\n" ++
        " .endmacro\nl: m 1\n"⟩
  obtain ⟨read, hread, hbuilds⟩ : ∃ read, readSource 0 main.name main.text [] = .ok read ∧
      ((buildProgram ⟨.ofPaths [], []⟩ main read.lines).toOption.any fun program =>
        decide (program.actions.length = 2 ∧ program.macros.map Prod.fst = ["m"])) = true :=
    exists_ok_of_any _ (by decide +kernel)
  obtain ⟨program, hprogram, hparts⟩ := exists_ok_of_any _ hbuilds
  obtain ⟨hactions, hmacros⟩ := of_decide_eq_true hparts
  exact ⟨main, read, program, rfl, hread, hprogram, hactions, hmacros,
    (blocks_nest ⟨.ofPaths [], []⟩ main read.lines).1 program hprogram⟩

end Asm65816
