import Mathlib
import Asm65816.Proofs.ChangedWalks
import Asm65816.Proofs.EditedInPlace
import Asm65816.Proofs.RecasedLines

/-!
# Programs whose words are in another letter case

Directives, mnemonics and the keywords of flow statements are looked up in any letter case, and
macros under their exact names. No macro is ever defined under a word, in any letter case. So the
same macros are called whatever case the words of the sources are in, and the same bytes and the
same listing come out.
-/

namespace Asm65816

/-! ## Words and macros -/

/-- No macro has the name of a word. -/
def BuildState.NamesNoWord (state : BuildState) : Prop :=
  ∀ name, state.macros.has name = true → isWord name = false

/-- Keywords are among the names that are reserved. -/
theorem not_keyword_of_unreserved {name : String}
    (h : ∀ word ∈ reservedNames, sameLetters word name = false) :
    FlowStatement.isKeyword name = false := by
  refine List.any_eq_false.mpr fun keyword hkeyword hsame => ?_
  rw [h keyword (List.mem_append_right _ hkeyword)] at hsame
  cases hsame

/-- Mnemonics are the names in the table of opcodes. -/
theorem not_mnemonic_of_unlisted {name : String}
    (h : ∀ entry ∈ Opcode.table, sameLetters entry.mnemonic name = false) :
    Opcode.isMnemonic name = false := by
  refine Bool.eq_false_iff.mpr fun hmnemonic => ?_
  obtain ⟨entry, hentry, hsame⟩ := Opcode.exists_sameLetters hmnemonic
  rw [h entry hentry] at hsame
  cases hsame

/-- Words are not free to be defined. -/
theorem FreeName.not_word {equates : Table Number} {macros : Table MacroDefinition} {name : String}
    (h : FreeName equates macros name) : isWord name = false := by
  rw [isWord, h.noPeriod, not_keyword_of_unreserved h.notReserved,
    not_mnemonic_of_unlisted h.notMnemonic]
  rfl

theorem BuildState.Defines.namesNoWord {state next : BuildState} (h : state.Defines next)
    (hnames : state.NamesNoWord) : next.NamesNoWord := by
  intro name hname
  cases h with
  | nothing equates macros => exact hnames name (macros name ▸ hname)
  | equate defined number free equates macros => exact hnames name (macros ▸ hname)
  | macroName defined definition free equates macros =>
    rw [macros, Table.has, Table.get?_put] at hname
    split at hname
    case isTrue hsame => exact hsame ▸ free.not_word
    case isFalse => exact hnames name hname

/-- While a program is built, no macro is defined under a word. -/
theorem BuildsTo.namesNoWord {search : AssetSearch} {state last : BuildState}
    {tasks left : List BuildTask} (hrun : BuildsTo search state tasks last left)
    (hnames : state.NamesNoWord) : last.NamesNoWord := by
  induction hrun with
  | here => exact hnames
  | step advanced _ ih => exact ih ((BuildTask.advance_defines advanced).namesNoWord hnames)

theorem BuildState.SparesWords.plain {state : BuildState} (h : state.SparesWords) {name : String}
    (hname : state.macros.has name = true) :
    FlowStatement.isKeyword name = false ∧ Opcode.isMnemonic name = false :=
  ⟨not_keyword_of_unreserved (h.reserved name hname),
    not_mnemonic_of_unlisted (h.mnemonics name hname)⟩

/-! ## Spellings -/

/-- How the words at each location are spelled, up to letter case. Other names stay as they are. -/
structure Spelling where
  spell : Location → String → String
  caseless : ∀ location name, SameCaseless name.toList (spell location name).toList
  others : ∀ location name, isWord name = false → spell location name = name

/-- A change of the names of instructions only. -/
def OperationChange.KeepsOthers (change : OperationChange) : Prop :=
  ∀ location operation, (∀ mnemonic operands, operation ≠ .instruction mnemonic operands) →
    change location operation = operation

/-- Directives build no instructions. -/
theorem BuildState.directive_mapOperations {change : OperationChange} (h : change.KeepsOthers)
    {state next : BuildState} {name : String} {label : Option (Spanned String)} {ellipsis : Bool}
    {operands : List Expr} {location : Location}
    (hstep : state.directive name label ellipsis operands location = .ok next) :
    (state.mapOperations change).directive name label ellipsis operands location =
      .ok (next.mapOperations change) := by
  obtain ⟨effect, happly, -, -, hplain, hother⟩ := directive_effect hstep
  have hmapped := (changeView change).effect_state state location effect ?_
  · rw [happly] at hmapped
    rw [hother (state.mapOperations change) label location rfl rfl]
    exact hmapped
  · rintro operation (rfl | ⟨name, rfl⟩)
    · exact congrArg (fun changed => [Action.operation changed location])
        (h location operation fun mnemonic found heq => hplain mnemonic found (heq ▸ rfl))
    · exact congrArg (fun changed => [Action.operation changed location])
        (h location (.setGlobal name) (by simp))

section Spelling

variable (spelling : Spelling)

/-- The statement at a location, with its name as it is spelled there. -/
def caseEdit : StatementEdit := fun location statement =>
  { statement with
    name := ⟨spelling.spell location statement.name.node, statement.name.span⟩ }

/-- The change that spells the mnemonics of instructions as at their locations. -/
def caseChange : OperationChange := fun location operation =>
  match operation with
  | .instruction mnemonic operands => .instruction (spelling.spell location mnemonic) operands
  | operation => operation

theorem caseChange_keepsOthers : (caseChange spelling).KeepsOthers := by
  intro location operation hplain
  cases operation with
  | instruction mnemonic operands => exact absurd rfl (hplain mnemonic operands)
  | _ => rfl

end Spelling

section Caseless

variable {statement other : Statement}
  (h : SameCaseless statement.name.node.toList other.name.node.toList)

include h

theorem isNamed_caseless (name : String) : other.isNamed name = statement.isNamed name := by
  rw [Statement.isNamed, Statement.isNamed, sameLetters, sameLetters, h]

/-- Directives are told apart in any letter case. -/
theorem directive?_caseless : other.directive? = statement.directive? := by
  unfold Statement.directive?
  generalize statement.name.node.toList = text at h ⊢
  generalize other.name.node.toList = text' at h ⊢
  cases text with
  | nil =>
    obtain rfl := List.map_eq_nil_iff.mp h
    rfl
  | cons c rest =>
    obtain ⟨c', rest', rfl, hc, hrest⟩ := List.map_eq_cons_iff.mp h
    by_cases hperiod : c = '.'
    · obtain rfl : c' = '.' :=
        (toUpper_eq_sign rfl).mp (hc.trans ((toUpper_eq_sign rfl).mpr hperiod))
      have hname : upperAscii (String.ofList rest') = upperAscii (String.ofList rest) := by
        refine upperAscii_caseless ?_
        rw [String.toList_ofList, String.toList_ofList]
        exact hrest
      rw [hperiod]
      exact congrArg some hname
    · have hother : c' ≠ '.' := fun hc' =>
        hperiod ((toUpper_eq_sign rfl).mp (hc.symm.trans ((toUpper_eq_sign rfl).mpr hc')))
      split
      case h_1 heq => exact absurd (List.cons.inj heq).1 hother
      case h_2 =>
        split
        case h_1 heq => exact absurd (List.cons.inj heq).1 hperiod
        case h_2 => rfl

theorem misplacesEllipsis_caseless (hellipsis : other.ellipsis = statement.ellipsis) :
    other.misplacesEllipsis = statement.misplacesEllipsis := by
  rw [Statement.misplacesEllipsis, Statement.misplacesEllipsis, isNamed_caseless h, hellipsis]

theorem includes_caseless (hellipsis : other.ellipsis = statement.ellipsis) :
    other.includes = statement.includes := by
  rw [Statement.includes, Statement.includes, directive?_caseless h,
    misplacesEllipsis_caseless h hellipsis]

end Caseless

section Building

variable (spelling : Spelling)

/-- A name that is no directive is a word when it is a keyword or a mnemonic. -/
theorem isWord_of_plain {statement : Statement} (h : statement.directive? = none) :
    isWord statement.name.node =
      (FlowStatement.isKeyword statement.name.node || Opcode.isMnemonic statement.name.node) := by
  have hperiod : beginsWith '.' statement.name.node = false := by
    refine Bool.eq_false_iff.mpr fun hbegins => ?_
    have hhead : statement.name.node.toList.head? = some '.' := eq_of_beq hbegins
    obtain ⟨rest, hname⟩ := List.head?_eq_some_iff.mp hhead
    rw [Statement.directive?, hname] at h
    cases h
  rw [isWord, hperiod, Bool.false_or]

/-- A macro call, a flow statement or an instruction is the same in another letter case, where no
macro has the name of a word. -/
theorem plainStatement_caseEdit {state : BuildState} (hspares : state.SparesWords)
    {statement : Statement} (hplain : statement.directive? = none) (location : Location) :
    (state.mapOperations (caseChange spelling)).plainStatement
        (caseEdit spelling location statement) location =
      (state.plainStatement statement location).map
        (BuildState.mapOperations (caseChange spelling)) := by
  have hword := isWord_of_plain hplain
  have hcaseless := spelling.caseless location statement.name.node
  have hothers := spelling.others location statement.name.node
  have hname : (caseEdit spelling location statement).name.node =
      spelling.spell location statement.name.node := rfl
  have hadd (operation : Operation) :
      (state.add operation location).mapOperations (caseChange spelling) =
        (state.mapOperations (caseChange spelling)).add
          (caseChange spelling location operation) location :=
    BuildState.mapOperations_add _ _ _ _
  unfold BuildState.plainStatement
  simp only [hname, BuildState.has_mapOperations]
  cases hcalls : state.macros.has statement.name.node with
  | true =>
    obtain ⟨hkeyword, hmnemonic⟩ := hspares.plain hcalls
    rw [hothers (by rw [hword, hkeyword, hmnemonic]; rfl), hcalls]
    exact congrArg Except.ok (BuildState.mapOperations_append (caseChange spelling) state
      (.callMacro statement.name.node statement.operands location)).symm
  | false =>
    have hcalls' : state.macros.has (spelling.spell location statement.name.node) = false := by
      refine Bool.eq_false_iff.mpr fun hdefined => ?_
      obtain ⟨hkeyword, hmnemonic⟩ := hspares.plain hdefined
      rw [isKeyword_caseless hcaseless] at hkeyword
      rw [Opcode.isMnemonic_caseless hcaseless] at hmnemonic
      rw [hothers (by rw [hword, hkeyword, hmnemonic]; rfl), hcalls] at hdefined
      cases hdefined
    rw [hcalls', isKeyword_caseless hcaseless, upperAscii_caseless hcaseless]
    simp only [Bool.false_eq_true, if_false]
    split
    · rw [map_bind]
      exact bind_congr fun flow => congrArg Except.ok (hadd (.flow flow)).symm
    · exact congrArg Except.ok
        (hadd (.instruction statement.name.node statement.operands)).symm

/-- Statements in another letter case build the same operations, but for the spelling of
mnemonics. -/
theorem caseEdit_builds : (caseEdit spelling).Builds (caseChange spelling) where
  label _ _ := rfl
  mark _ _ := rfl
  span _ _ := rfl
  macros location statement := isNamed_caseless (spelling.caseless location statement.name.node) _
  includes location statement := by
    have hcaseless : SameCaseless statement.name.node.toList
        (caseEdit spelling location statement).name.node.toList :=
      spelling.caseless location statement.name.node
    exact includes_caseless hcaseless rfl
  files _ _ _ := rfl
  statements := by
    intro search label location statement state next hincludes hspares hbuilt
    have hcaseless : SameCaseless statement.name.node.toList
        (caseEdit spelling (location.narrow statement.span) statement).name.node.toList :=
      spelling.caseless (location.narrow statement.span) statement.name.node
    have hincludes' := (includes_caseless hcaseless rfl).trans hincludes
    obtain ⟨hellipsis, hcases⟩ := (buildStatement_eq_ok hincludes).mp hbuilt
    refine (buildStatement_eq_ok hincludes').mpr
      ⟨(misplacesEllipsis_caseless hcaseless rfl).trans hellipsis, ?_⟩
    rcases hcases with ⟨name, hname, hdirective⟩ | ⟨hplain, hstatement⟩
    · refine .inl ⟨name, (directive?_caseless hcaseless).trans hname, ?_⟩
      exact BuildState.directive_mapOperations (caseChange_keepsOthers spelling) hdirective
    · refine .inr ⟨(directive?_caseless hcaseless).trans hplain, ?_⟩
      have hmapped := plainStatement_caseEdit spelling hspares hplain
        (location.narrow statement.span)
      rw [hstatement] at hmapped
      exact hmapped

end Building

/-! ## Sources in another letter case -/

/-- The second text is the first one with the letters at the chosen bytes in their other case, and
each of these bytes is in a word, wherever the first text is read. -/
structure RecasesWords (chosen : Nat → Bool) (text text' : String) : Prop where
  text_eq : text' = String.ofList (recase chosen 0 text.toList)
  words : ∀ place, chosen place = true → ∀ source file includedFrom read,
    readSource source file text includedFrom = .ok read → read.HasWordAt place

/-- The bytes that are chosen in the main source, and in the file of each path. -/
structure ChosenBytes where
  main : Nat → Bool
  files : String → Nat → Bool

namespace ChosenBytes

variable (chosen : ChosenBytes)

/-- The bytes that are chosen in the source of a location. Only the main source is not included. -/
def within (location : Location) : Nat → Bool :=
  if location.includedFrom.isEmpty then chosen.main else chosen.files location.file

/-- The spelling of words with the letters at the chosen bytes in their other case. -/
def spelling : Spelling where
  spell location name := recaseWord (chosen.within location) location.span.start name
  caseless _ name := recaseWord_caseless _ _ name
  others _ _ h := if_neg (Bool.eq_false_iff.mp h)

theorem recased_eq_edited {line : Line} {bytes : Nat → Bool}
    (h : chosen.within line.location = bytes) :
    line.recased bytes = line.edited (caseEdit chosen.spelling) := by
  subst h
  obtain ⟨body, location⟩ := line
  cases body with
  | equate | statements => rfl

/-- A source with words in another letter case reads as its statements with their names spelled in
that case. -/
theorem readsInPlace {bytes : Nat → Bool} {source : Nat} {file : String}
    {includedFrom : List IncludeSite} {text text' : String} (h : RecasesWords bytes text text')
    (hbytes : ∀ location : Location, location.file = file → location.includedFrom = includedFrom →
      chosen.within location = bytes) :
    ReadsInPlace (caseEdit chosen.spelling) source file includedFrom text text' := by
  intro read hread
  rw [h.text_eq, readSource_recased hread fun place hplace => h.words place hplace _ _ _ _ hread]
  refine congrArg (fun lines => Except.ok (SourceLines.mk lines read.warnings))
    (List.map_congr_left fun line hline => ?_)
  obtain ⟨hfile, hfrom⟩ := readSource_location hread hline
  exact chosen.recased_eq_edited (hbytes line.location hfile hfrom)

end ChosenBytes

/-- A main source with the files that it can include, and the same with words in another letter
case. -/
structure RecasesProgram (chosen : ChosenBytes) (search : AssetSearch) (main : SourceFile)
    (search' : AssetSearch) (main' : SourceFile) : Prop where
  name : main'.name = main.name
  main : RecasesWords chosen.main main.text main'.text
  directories : search'.directories = search.directories
  files : search.store.Changes (fun path => RecasesWords (chosen.files path)) search'.store

namespace RecasesProgram

variable {chosen : ChosenBytes} {search search' : AssetSearch} {main main' : SourceFile}
  (h : RecasesProgram chosen search main search' main')

include h

theorem readsInPlace :
    ReadsInPlace (caseEdit chosen.spelling) 0 main.name [] main.text main'.text := by
  refine chosen.readsInPlace h.main fun location hfile hfrom => ?_
  rw [ChosenBytes.within, hfrom]
  rfl

theorem editsInPlace : search.EditsInPlace (caseEdit chosen.spelling) search' where
  directories := h.directories
  store := by
    refine ⟨h.files.unreadable, fun path bytes hread => ?_⟩
    obtain ⟨bytes', hread', htexts⟩ := h.files.readable path bytes hread
    refine ⟨bytes', hread', fun text htext => ?_⟩
    obtain ⟨text', htext', hwords⟩ := htexts text htext
    refine ⟨text', htext', fun source includedFrom hincluded => ?_⟩
    refine chosen.readsInPlace hwords fun location hfile hfrom => ?_
    rw [ChosenBytes.within, hfrom, hfile, List.isEmpty_eq_false_iff.mpr hincluded]
    rfl

end RecasesProgram

/-! ## Walks -/

section Walks

variable {environment : Environment} {calls : List MacroCall} {location : Location}
  {layout : Layout}

/-- An instruction is laid out alike in any letter case. -/
theorem placeOperation_caseless {mnemonic other : String}
    (h : SameCaseless mnemonic.toList other.toList) {operands : List Expr}
    {placed : PlacedOperation} {size : Nat} {next : Layout}
    (hplaced : placeOperation environment calls location layout (.instruction mnemonic operands) =
      .ok (placed, size, next)) :
    ∃ encoding, placed = .instruction encoding ∧
      SameCaseless encoding.mnemonic.toList other.toList ∧
      placeOperation environment calls location layout (.instruction other operands) =
        .ok (.instruction { encoding with mnemonic := other }, size, next) := by
  have hcandidates : Opcode.candidates other = Opcode.candidates mnemonic := by
    rw [Opcode.candidates, Opcode.entries_caseless h, Opcode.candidates]
  obtain ⟨hmnemonic, hplaced⟩ := refuse_eq_ok.mp hplaced
  obtain ⟨⟨resolved, reached⟩, hresolved, hplaced⟩ := bind_eq_ok.mp hplaced
  obtain ⟨opcode, hopcode, hplaced⟩ := bind_eq_ok.mp hplaced
  cases hplaced
  refine ⟨_, rfl, h, ?_⟩
  have hselected : Opcode.select other next.widths resolved = .ok opcode := by
    rw [Opcode.select] at hopcode ⊢
    rw [hcandidates]
    split at hopcode
    case h_1 =>
      cases hopcode
      rfl
    case h_2 => cases hopcode
  refine refuse_eq_ok.mpr ⟨?_, bind_eq_ok.mpr ⟨_, hresolved, bind_eq_ok.mpr ⟨_, hselected, rfl⟩⟩⟩
  rw [Opcode.isMnemonic_caseless h]
  exact hmnemonic

/-- An instruction gives the same bytes and the same listing in any letter case. -/
theorem emitOperation_caseless {encoding : Encoding} {other : String}
    (h : SameCaseless encoding.mnemonic.toList other.toList) (labels : List Resolution)
    (layout : Layout) :
    emitOperation labels layout (.instruction { encoding with mnemonic := other }) =
      emitOperation labels layout (.instruction encoding) := by
  have hbytes (value : Expr → Except Fault Number) :
      Encoding.bytes { encoding with mnemonic := other } value = encoding.bytes value := rfl
  have htext (bytes : List UInt8) :
      Encoding.listingText { encoding with mnemonic := other } bytes =
        encoding.listingText bytes := by
    simp only [Encoding.listingText, upperAscii_caseless h]
  simp only [emitOperation, hbytes, htext]

/-- Events that do the same in every second walk. -/
def Event.EmitsSame (event event' : Event) : Prop :=
  ∀ (labels : List Resolution) (emission : Emission),
    emission.event labels event' = emission.event labels event

theorem emitEvents_same {events events' : List Event}
    (h : List.Forall₂ Event.EmitsSame events events') (labels : List Resolution)
    (emission : Emission) :
    emitEvents labels emission events' = emitEvents labels emission events := by
  induction h generalizing emission with
  | nil => rfl
  | cons hevent _ ih =>
    rw [emitEvents, emitEvents, List.foldlM_cons, List.foldlM_cons, hevent labels emission]
    exact bind_congr fun next => ih next

/-- An operation with its mnemonic in another letter case is laid out and emitted alike. -/
theorem caseChange_laysOutAlike (spelling : Spelling) {other : Environment}
    (hnames : environment.SameNames other) {found : Layout} {operation : Operation}
    (hfile : ∀ path, operation = .includeBinary path → environment.SameFile other path) :
    LaysOutAlike (caseChange spelling) environment other Eq (fun _ => Event.EmitsSame) found calls
      operation location := by
  rintro found' event next rfl hstep
  obtain ⟨⟨placed, size, reached⟩, hplaced, hstep⟩ := bind_eq_ok.mp hstep
  obtain ⟨last, hlast, hstep⟩ := bind_eq_ok.mp hstep
  cases hstep
  rw [failingAt_eq_ok] at hplaced
  have hdone {operation' : Operation} {placed' : PlacedOperation}
      (hplaced' : placeOperation other calls location found operation' =
        .ok (placed', size, reached)) :
      Task.advance other found (.action calls (.operation operation' location)) =
        .ok (.operation placed' size location, next, []) :=
    bind_eq_ok.mpr ⟨_, failingAt_eq_ok.mpr hplaced', bind_eq_ok.mpr ⟨next, hlast, rfl⟩⟩
  by_cases hplain : ∀ mnemonic operands, operation ≠ .instruction mnemonic operands
  · rw [caseChange_keepsOthers spelling location operation hplain]
    refine ⟨_, next, hdone ?_, fun _ _ => rfl, rfl⟩
    rw [hnames.placeOperation_eq calls location found operation hfile]
    exact hplaced
  · obtain ⟨mnemonic, operands, rfl⟩ : ∃ mnemonic operands,
        operation = .instruction mnemonic operands := by
      simpa using hplain
    obtain ⟨encoding, rfl, hcaseless, hplaced'⟩ :=
      placeOperation_caseless (spelling.caseless location mnemonic) hplaced
    rw [← hnames.placeOperation_eq calls location found _ (by simp)] at hplaced'
    refine ⟨_, next, hdone hplaced', fun labels emission => ?_, rfl⟩
    simp only [Emission.event, Emission.operation, emitOperation_caseless hcaseless]

end Walks

/-- A program with its mnemonics in another letter case emits the same, where it finds the same
files to embed. -/
theorem Program.emit_recased {program : Program} {search search' : AssetSearch}
    (spelling : Spelling) (sources : Sources)
    (hfiles : ∀ path, program.Embeds search path →
      search'.store.locate search'.directories path =
        search.store.locate search.directories path)
    {emission : Emission} (hemit : program.emit search true = .ok emission) :
    Program.emit { program.mapOperations (caseChange spelling) with sources := sources } search'
      true = .ok emission := by
  obtain ⟨trace, last, labels, walk, hclosed, hlabels, hemitted⟩ := Program.emit_eq_ok.mp hemit
  have hchanges : (program.environment search).Changes (caseChange spelling)
      (Program.environment
        { program.mapOperations (caseChange spelling) with sources := sources } search') :=
    ⟨rfl, rfl⟩
  obtain ⟨trace', last', walk', rfl, htrace⟩ :=
    walk.mapOperations hchanges (fun layout layout' h => congrArg Layout.address h.symm)
      (fun _ _ _ _ => rfl) (fun found calls operation location others hfound =>
        caseChange_laysOutAlike spelling hchanges.sameNames fun path hpath =>
          hfiles path ⟨found, calls, location, others, hpath ▸ hfound⟩) rfl
  rw [bodyTasks_mapOperations] at walk'
  refine Program.emit_eq_ok.mpr ⟨trace', last, labels, walk', hclosed, hlabels, ?_⟩
  rw [emitEvents_same, hemitted]
  refine List.forall₂_map_left_iff.mpr (List.forall₂_map_right_iff.mpr ?_)
  exact htrace.imp fun _ _ h => h.2

/-! ## Checking a change of letter case -/

/-- The names of statements, with the bytes from which and up to which each reaches. -/
def SourceLines.names (read : SourceLines) : List (String × Nat × Nat) :=
  (read.lines.flatMap fun line => line.body.row).map fun statement =>
    (statement.name.node, statement.name.span.start, statement.name.span.stop)

/-- Letters at some places, each of which is in one of the names that a text is known to have. -/
theorem recasesWords_of_names {places : List Nat} {text text' : String}
    {names : List (String × Nat × Nat)}
    (hnames : ∀ source file includedFrom,
      (readSource source file text includedFrom).toOption.map SourceLines.names = some names)
    (htext : text' = String.ofList (recase places.contains 0 text.toList))
    (hplaces : (places.all fun place => names.any fun name =>
      isWord name.1 && decide (name.2.1 ≤ place) && decide (place < name.2.2)) = true) :
    RecasesWords places.contains text text' where
  text_eq := htext
  words := by
    intro place hplace source file includedFrom read hread
    have hfound := hnames source file includedFrom
    rw [hread] at hfound
    obtain rfl := Option.some.inj hfound
    obtain ⟨name, hname, hwithin⟩ := List.any_eq_true.mp
      (List.all_eq_true.mp hplaces place (List.contains_iff_mem.mp hplace))
    obtain ⟨statement, hstatement, rfl⟩ := List.mem_map.mp hname
    obtain ⟨line, hline, hrow⟩ := List.mem_flatMap.mp hstatement
    simp only [Bool.and_eq_true, decide_eq_true_eq] at hwithin
    obtain ⟨⟨hword, hlow⟩, hhigh⟩ := hwithin
    exact ⟨line, hline, statement, hrow, hword, hlow, hhigh⟩

/-- A change of the only file of a table. -/
theorem changes_ofPaths {related : String → String → String → Prop} {path : String}
    {bytes bytes' : List UInt8}
    (h : ∀ text, textOfBytes? bytes = some text →
      ∃ text', textOfBytes? bytes' = some text' ∧ related path text text') :
    (AssetStore.ofPaths [(path, bytes)]).Changes related (.ofPaths [(path, bytes')]) := by
  have hread (content : List UInt8) (found : String) :
      (AssetStore.ofPaths [(path, content)]).read found =
        if path = found then .ok content else .error .missing := by
    change Option.elim (if path = found then some content else none) _ _ = _
    split
    · rfl
    · rfl
  refine ⟨fun found fault hfault => ?_, fun found content hcontent => ?_⟩
  · rw [hread] at hfault ⊢
    split at hfault
    case isTrue => cases hfault
    case isFalse hother => rwa [if_neg hother]
  · rw [hread] at hcontent
    split at hcontent
    case isTrue hsame =>
      subst hsame
      cases hcontent
      exact ⟨bytes', by rw [hread, if_pos rfl], h⟩
    case isFalse => cases hcontent

/-- Whether a task embeds a file. -/
def Task.embeds : Task → Bool
  | .action _ (.operation (.includeBinary _) _) => true
  | _ => false

/-- A run whose walk embeds no file. -/
def AssemblyRun.embedsNothing {search : AssetSearch} {main : SourceFile}
    (run : AssemblyRun search main) (fuel : Nat) : Bool :=
  holdsOnWalk (run.program.environment search) (fun _ task => !task.embeds) fuel Layout.empty
    (bodyTasks [] run.program.actions)

theorem AssemblyRun.not_embeds {search : AssetSearch} {main : SourceFile}
    {run : AssemblyRun search main} {fuel : Nat} (h : run.embedsNothing fuel = true)
    (path : String) : ¬ run.program.Embeds search path := by
  rintro ⟨found, calls, location, others, hfound⟩
  cases holdsOnWalk_sound h hfound

/-- An included file with its mnemonic in upper case. -/
theorem changes_nop : (AssetStore.ofPaths [("a.s", utf8Bytes " nop")]).Changes
    (fun _ => RecasesWords [1, 2, 3].contains) (.ofPaths [("a.s", utf8Bytes " NOP")]) := by
  have hnames source file includedFrom :
      (readSource source file " nop" includedFrom).toOption.map SourceLines.names =
        some [("nop", 1, 4)] := by
    cbv
  refine changes_ofPaths fun text htext => ?_
  obtain rfl : " nop" = text := Option.some.inj (htext.symm.trans (by decide +kernel)).symm
  exact ⟨" NOP", by decide +kernel,
    recasesWords_of_names hnames (by decide +kernel) (by decide +kernel)⟩

/-! ## Assemblies -/

/-- Words are read in any letter case. When the letters of words, in a main source that assembles
and in the files that it includes, are put in their other case, the program assembles to the same
segments and the same listing, where the files that it embeds stay as they are. While any program is
built, no macro is defined under a word, however that is spelled. -/
theorem assembles_in_any_case {search search' : AssetSearch} {main main' : SourceFile}
    {listing : Bool} {assembly : Assembly}
    (hassembled : assemble search main listing = .ok assembly) (run : AssemblyRun search main)
    {chosen : ChosenBytes} (hrecased : RecasesProgram chosen search main search' main')
    (hfiles : ∀ path, run.program.Embeds search path →
      search'.store.locate search'.directories path =
        search.store.locate search.directories path) :
    (∃ assembly', assemble search' main' listing = .ok assembly' ∧
      assembly'.segments = assembly.segments ∧ assembly'.listing = assembly.listing) ∧
    ∀ (assets : AssetSearch) (source : SourceFile) (lines : List Line) (state : BuildState)
      (left : List BuildTask), BuildsTo assets (.initial [source]) (lineTasks lines) state left →
      ∀ word spelled, isWord word = true → sameLetters word spelled = true →
        state.macros.has spelled = false := by
  constructor
  · obtain ⟨sources, hread', hbuilt'⟩ := buildProgram_in_place (caseEdit_builds chosen.spelling)
      hrecased.editsInPlace hrecased.name hrecased.readsInPlace run.read run.built
    obtain ⟨source, program, emission, hread, hbuilt, hemit, rfl⟩ := assemble_eq_ok.mp hassembled
    cases hread.symm.trans run.read
    cases hbuilt.symm.trans run.built
    have hemit' := Program.emit_recased chosen.spelling sources hfiles hemit
    exact ⟨_, assemble_of_emit listing hread' hbuilt' hemit', rfl, rfl⟩
  · intro assets source lines state left hrun word spelled hword hsame
    refine Bool.eq_false_iff.mpr fun hdefined => ?_
    have hnone : (BuildState.initial [source]).NamesNoWord := fun name hname => by cases hname
    have hcaseless : SameCaseless word.toList spelled.toList := (eq_of_beq hsame).symm
    have hspelled := hrun.namesNoWord hnone spelled hdefined
    rw [isWord_caseless hcaseless, hword] at hspelled
    cases hspelled

/-- A main source that defines and calls a macro, and includes an instruction. -/
theorem assembles_in_any_case_included :
    ∃ (main main' : SourceFile) (assembly assembly' : Assembly),
      main.text =
        " .segment \"c\",1,9,0\n .c\nm: .macro\n inx\n .endmacro\n m\n .include \"a.s\"\n" ∧
      main'.text =
        " .segment \"c\",1,9,0\n .C\nm: .Macro\n INX\n .endmacro\n m\n .include \"a.s\"\n" ∧
      assemble ⟨.ofPaths [("a.s", utf8Bytes " nop")], []⟩ main true = .ok assembly ∧
      assemble ⟨.ofPaths [("a.s", utf8Bytes " NOP")], []⟩ main' true = .ok assembly' ∧
      assembly'.segments = assembly.segments ∧ assembly'.listing = assembly.listing := by
  let main : SourceFile :=
    ⟨"m.s", " .segment \"c\",1,9,0\n .c\nm: .macro\n inx\n .endmacro\n m\n .include \"a.s\"\n"⟩
  let main' : SourceFile :=
    ⟨"m.s", " .segment \"c\",1,9,0\n .C\nm: .Macro\n INX\n .endmacro\n m\n .include \"a.s\"\n"⟩
  let chosen : ChosenBytes := ⟨[22, 28, 35, 36, 37].contains, fun _ => [1, 2, 3].contains⟩
  obtain ⟨run, hrun⟩ : ∃ run : AssemblyRun ⟨.ofPaths [("a.s", utf8Bytes " nop")], []⟩ main,
      run.embedsNothing 40 = true :=
    AssemblyRun.exists_of_any _ (by decide +kernel)
  have hmain source file includedFrom :
      (readSource source file main.text includedFrom).toOption.map SourceLines.names =
        some [(".segment", 1, 9), (".c", 21, 23), (".macro", 27, 33), ("inx", 35, 38),
          (".endmacro", 40, 49), ("m", 51, 52), (".include", 54, 62)] := by
    cbv
  have hrecased : RecasesProgram chosen ⟨.ofPaths [("a.s", utf8Bytes " nop")], []⟩ main
      ⟨.ofPaths [("a.s", utf8Bytes " NOP")], []⟩ main' :=
    { name := rfl
      main := recasesWords_of_names hmain (by decide +kernel) (by decide +kernel)
      directories := rfl
      files := changes_nop }
  obtain ⟨assembly, hassembled⟩ := run.assembles true
  obtain ⟨⟨assembly', hassembled', hsegments, hlisting⟩, -⟩ :=
    assembles_in_any_case hassembled run hrecased fun path hpath =>
      absurd hpath (AssemblyRun.not_embeds hrun path)
  exact ⟨main, main', assembly, assembly', rfl, rfl, hassembled, hassembled', hsegments, hlisting⟩

/-- A mnemonic of an included file that is embedded too comes out in the letter case it is in. -/
theorem word_counts_in_embedded_file :
    ∃ (chosen : ChosenBytes) (main : SourceFile) (assembly assembly' : Assembly),
      main.text = " .segment \"c\",0x8000,99,0\n .c\n .include \"a.s\"\n .incbin \"a.s\"\n" ∧
      RecasesProgram chosen ⟨.ofPaths [("a.s", utf8Bytes " nop")], []⟩ main
        ⟨.ofPaths [("a.s", utf8Bytes " NOP")], []⟩ main ∧
      assemble ⟨.ofPaths [("a.s", utf8Bytes " nop")], []⟩ main false = .ok assembly ∧
      assemble ⟨.ofPaths [("a.s", utf8Bytes " NOP")], []⟩ main false = .ok assembly' ∧
      assembly'.segments ≠ assembly.segments := by
  let main : SourceFile :=
    ⟨"m.s", " .segment \"c\",0x8000,99,0\n .c\n .include \"a.s\"\n .incbin \"a.s\"\n"⟩
  let chosen : ChosenBytes := ⟨fun _ => false, fun _ => [1, 2, 3].contains⟩
  have hrecased : RecasesProgram chosen ⟨.ofPaths [("a.s", utf8Bytes " nop")], []⟩ main
      ⟨.ofPaths [("a.s", utf8Bytes " NOP")], []⟩ main :=
    { name := rfl
      main := ⟨by decide +kernel, fun _ hplace => by cases hplace⟩
      directories := rfl
      files := changes_nop }
  obtain ⟨assembly, hassembled, hother⟩ : ∃ assembly,
      assemble ⟨.ofPaths [("a.s", utf8Bytes " nop")], []⟩ main false = .ok assembly ∧
        (assemble ⟨.ofPaths [("a.s", utf8Bytes " NOP")], []⟩ main false).toOption.any
          (fun assembly' => assembly'.segments != assembly.segments) = true :=
    exists_ok_of_any _ (by decide +kernel)
  obtain ⟨assembly', hassembled', hdiffers⟩ := exists_ok_of_any _ hother
  exact ⟨chosen, main, assembly, assembly', rfl, hrecased, hassembled, hassembled',
    bne_iff_ne.mp hdiffers⟩

end Asm65816
