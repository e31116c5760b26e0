import Asm65816.Proofs.StatementEffects

/-!
# The literals of a program

Building a program gathers the operands of its lines in actions and in the bodies of macros, with
their literals as they are. Equates are the only numbers that it makes of its own: each of them is
sound unless its definition takes the width over, as a sign, a complement or another equate does.
-/

namespace Asm65816

/-! ## Operands -/

mutual

/-- The operands of an action and of the actions inside it. -/
def Action.operands : Action → List Expr
  | .operation operation _ => operation.operands
  | .callMacro _ operands _ => operands
  | .conditional arms _ => armOperands arms
  | .argumentLoop body _ => bodyOperands body

/-- The operands of a body. -/
def bodyOperands : List Action → List Expr
  | [] => []
  | action :: rest => action.operands ++ bodyOperands rest

/-- The operands of the bodies of arms. -/
def armOperands : List ConditionalArm → List Expr
  | [] => []
  | .mk _ body _ :: rest => bodyOperands body ++ armOperands rest

end

/-- The operands of a body are those of its actions. -/
theorem mem_bodyOperands {operand : Expr} {body : List Action} :
    operand ∈ bodyOperands body ↔ ∃ action ∈ body, operand ∈ action.operands := by
  induction body with
  | nil => simp [bodyOperands]
  | cons action rest ih => simp [bodyOperands, ih]

/-- A further arm adds the operands of its body. -/
theorem armOperands_append (arms : List ConditionalArm) (condition : Option Expr)
    (body : List Action) (location : Location) :
    armOperands (arms ++ [.mk condition body location]) =
      armOperands arms ++ bodyOperands body := by
  induction arms with
  | nil => simp [armOperands]
  | cons arm rest ih =>
    cases arm with
    | mk other found place => simp [armOperands, ih]

/-- Operands with sound literals. -/
def SoundOperands (equates : Table Number) (operands : List Expr) : Prop :=
  ∀ operand ∈ operands, operand.SoundLiterals equates

variable {equates : Table Number}

/-- Without operands there is nothing to show. -/
theorem SoundOperands.nil : SoundOperands equates [] := fun _ h => by cases h

/-- Some of the operands are sound with all of them. -/
theorem SoundOperands.mono {operands some : List Expr} (h : SoundOperands equates operands)
    (hsome : some ⊆ operands) : SoundOperands equates some :=
  fun operand hoperand => h operand (hsome hoperand)

/-- An action with sound operands at the end of a body that has them. -/
theorem SoundOperands.append_action {body : List Action} {action : Action}
    (hbody : SoundOperands equates (bodyOperands body))
    (haction : SoundOperands equates action.operands) :
    SoundOperands equates (bodyOperands (body ++ [action])) := by
  intro operand hoperand
  obtain ⟨found, hfound, hmem⟩ := mem_bodyOperands.mp hoperand
  rcases List.mem_append.mp hfound with hold | hnew
  · exact hbody operand (mem_bodyOperands.mpr ⟨found, hold, hmem⟩)
  · obtain rfl := List.mem_singleton.mp hnew
    exact haction operand hmem

/-- Macros whose bodies have sound operands. -/
def SoundMacros (equates : Table Number) (macros : Table MacroDefinition) : Prop :=
  ∀ name definition, macros.get? name = some definition →
    SoundOperands equates (bodyOperands definition.body)

/-! ## Binding -/

namespace Expr

/-- Binding the items of a group binds each of them. -/
theorem mem_bindAll {ε : Type} {choose : Name → Except ε (Option Expr)} {items bounds : List Expr}
    (h : bindAll choose items = .ok bounds) :
    ∀ bound ∈ bounds, ∃ item ∈ items, item.bindNames choose = .ok bound := by
  induction items generalizing bounds with
  | nil =>
    cases h
    simp
  | cons item rest ih =>
    simp only [bindAll, bind_eq_ok, pure_eq_ok] at h
    obtain ⟨first, hfirst, others, hothers, rfl⟩ := h
    intro bound hbound
    rcases List.mem_cons.mp hbound with rfl | hrest
    · exact ⟨item, List.mem_cons_self, hfirst⟩
    · obtain ⟨found, hfound, hbinds⟩ := ih hothers bound hrest
      exact ⟨found, List.mem_cons_of_mem _ hfound, hbinds⟩

/-- Binding names keeps the literals sound when names are given the numbers of equates, or
expressions whose literals are sound. -/
theorem SoundLiterals.bindNames {ε : Type} {choose : Name → Except ε (Option Expr)}
    {e bound : Expr} (hchoose : ∀ name value, choose name = .ok (some value) →
      (Expr.bound name value).SoundLiterals equates)
    (he : e.SoundLiterals equates) (h : e.bindNames choose = .ok bound) :
    bound.SoundLiterals equates := by
  induction e using Expr.inductionOn generalizing bound with
  | number value =>
    cases h
    exact he
  | name name =>
    obtain ⟨value, hvalue, h⟩ := bind_eq_ok.mp h
    cases value with
    | none =>
      cases h
      trivial
    | some value =>
      cases h
      exact hchoose name value hvalue
  | bound name value ih =>
    obtain ⟨inner, hinner, h⟩ := bind_eq_ok.mp h
    cases h
    rcases he with ⟨n, rfl, hknown⟩ | hvalue
    · cases hinner
      exact .inl ⟨n, rfl, hknown⟩
    · exact .inr (ih hvalue hinner)
  | unary op operand ih =>
    obtain ⟨inner, hinner, h⟩ := bind_eq_ok.mp h
    cases h
    have hsound : inner.SoundLiterals equates := ih he hinner
    exact hsound
  | binary op left right ihl ihr =>
    obtain ⟨first, hfirst, h⟩ := bind_eq_ok.mp h
    obtain ⟨second, hsecond, h⟩ := bind_eq_ok.mp h
    cases h
    exact ⟨ihl he.1 hfirst, ihr he.2 hsecond⟩
  | group items long ih =>
    obtain ⟨bounds, hbounds, h⟩ := bind_eq_ok.mp h
    cases h
    refine soundLiteralsAll_iff.mpr fun inner hinner => ?_
    obtain ⟨item, hitem, hbinds⟩ := mem_bindAll hbounds inner hinner
    exact ih item hitem (soundLiteralsAll_iff.mp he item hitem) hbinds
  | text content petscii =>
    cases h
    trivial
  | immediate operand ih =>
    obtain ⟨inner, hinner, h⟩ := bind_eq_ok.mp h
    cases h
    have hsound : inner.SoundLiterals equates := ih he hinner
    exact hsound

end Expr

/-- Binding the equates and the current address keeps the literals sound. -/
theorem bindEquates_sound {address : Int} {operand bound : Expr}
    (hoperand : operand.SoundLiterals equates)
    (h : bindEquates equates address none operand = .ok bound) : bound.SoundLiterals equates := by
  refine hoperand.bindNames (fun name value hvalue => ?_) h
  obtain ⟨number, hnumber, rfl⟩ := Option.map_eq_some_iff.mp (Except.ok.inj hvalue)
  split at hnumber
  case isTrue =>
    cases hnumber
    exact .inr (addressNumber_sound address)
  case isFalse =>
    rw [Option.or_none] at hnumber
    exact .inl ⟨number, rfl, hnumber⟩

/-! ## Building -/

/-- A line of a file. -/
def SourceFile.Has (file : SourceFile) (line : Line) : Prop :=
  ∃ source includedFrom lines, readSource source file.name file.text includedFrom = .ok lines ∧
    line ∈ lines.lines

/-- The operands of a line of a file have sound literals. -/
theorem SourceFile.Has.sound {file : SourceFile} {line : Line} (h : file.Has line) :
    SoundOperands equates line.body.operands := by
  obtain ⟨source, includedFrom, lines, hread, hline⟩ := h
  exact readSource_sound hread line hline

/-- An equate of a source whose number takes its width over from its definition: a negative sign, a
complement, or an earlier equate of this kind. -/
inductive Sources.TakesWidth (sources : Sources) : String → Number → Prop where
  | intro {name : String} {n : Number} {file : SourceFile} {line : Line} {span : Span}
      {definition bound : Expr} {earlier : Table Number} (registered : file ∈ sources)
      (has : file.Has line) (defines : line.body = .equate ⟨name, span⟩ definition)
      (binds : bindEquates earlier 0 none definition = .ok bound)
      (value : bound.closedValue = .ok n) (takes : bound.TakesWidth earlier)
      (accounted : ∀ other m, earlier.get? other = some m → ¬m.Sound →
        Sources.TakesWidth sources other m) : Sources.TakesWidth sources name n

/-- Further sources take nothing away. -/
theorem Sources.TakesWidth.mono {sources more : Sources} {name : String} {n : Number}
    (h : sources.TakesWidth name n) (hmore : ∀ file ∈ sources, file ∈ more) :
    Sources.TakesWidth more name n := by
  induction h with
  | intro registered has defines binds value takes accounted ih =>
    exact .intro (hmore _ registered) has defines binds value takes ih

/-- The operands of an open block. -/
def Capture.operands : Capture → List Expr
  | .macroBody _ body _ => bodyOperands body
  | .conditional arms _ body _ _ => armOperands arms ++ bodyOperands body
  | .argumentLoop body _ => bodyOperands body

/-- What is known after some lines, with sound literals and numbers that are accounted for. -/
structure BuildState.Sound (equates : Table Number) (state : BuildState) : Prop where
  actions : SoundOperands equates (bodyOperands state.actions)
  captures : ∀ capture ∈ state.captures, SoundOperands equates capture.operands
  macros : SoundMacros equates state.macros
  numbers : ∀ name n, state.equates.get? name = some n →
    n.Sound ∨ state.sources.TakesWidth name n

/-- A state that keeps its sources and stays sound. -/
def BuildState.Follows (equates : Table Number) (state next : BuildState) : Prop :=
  next.Sound equates ∧ next.sources = state.sources

namespace BuildState

variable {state next : BuildState}

/-- Blocks with sound operands in place of the open ones. -/
theorem Sound.withCaptures (h : state.Sound equates) {captures : List Capture}
    (hcaptures : ∀ capture ∈ captures, SoundOperands equates capture.operands) :
    ({ state with captures := captures } : BuildState).Sound equates :=
  ⟨h.actions, hcaptures, h.macros, h.numbers⟩

/-- The blocks around the innermost one have sound operands. -/
theorem Sound.outer (h : state.Sound equates) {capture : Capture} {rest : List Capture}
    (hcaptures : state.captures = capture :: rest) :
    SoundOperands equates capture.operands ∧
      ∀ other ∈ rest, SoundOperands equates other.operands := by
  have hall := h.captures
  rw [hcaptures] at hall
  exact List.forall_mem_cons.mp hall

/-- An action with sound operands. -/
theorem Sound.append (h : state.Sound equates) {action : Action}
    (haction : SoundOperands equates action.operands) :
    state.Follows equates (state.append action) := by
  unfold BuildState.append
  split
  case h_1 capture rest hcaptures =>
    obtain ⟨hinner, houter⟩ := h.outer hcaptures
    refine ⟨h.withCaptures (List.forall_mem_cons.mpr ⟨?_, houter⟩), rfl⟩
    cases capture with
    | macroBody name body location | argumentLoop body location =>
      exact hinner.append_action haction
    | conditional arms condition body armLocation location =>
      intro operand hoperand
      rcases List.mem_append.mp hoperand with harms | hbody
      · exact hinner operand (List.mem_append_left _ harms)
      · refine SoundOperands.append_action (fun found hfound => ?_) haction operand hbody
        exact hinner found (List.mem_append_right _ hfound)
  case h_2 => exact ⟨⟨h.actions.append_action haction, h.captures, h.macros, h.numbers⟩, rfl⟩

/-- An operation with sound operands. -/
theorem Sound.add (h : state.Sound equates) {operation : Operation} {location : Location}
    (hoperation : SoundOperands equates operation.operands) :
    state.Follows equates (state.add operation location) :=
  h.append hoperation

/-- A block that is opened has no operands yet. -/
theorem Sound.enter (h : state.Sound equates) {capture : Capture}
    (hcapture : capture.operands = []) : state.Follows equates (state.enter capture) := by
  refine ⟨h.withCaptures (List.forall_mem_cons.mpr ⟨?_, h.captures⟩), rfl⟩
  rw [hcapture]
  exact .nil

/-- Making names global. -/
theorem Sound.declareGlobals (h : state.Sound equates) {location : Location} {position : Nat}
    {operands : List Expr}
    (hstep : BuildState.declareGlobals location position operands state = .ok next) :
    state.Follows equates next := by
  induction operands generalizing position state with
  | nil =>
    cases hstep
    exact ⟨h, rfl⟩
  | cons operand rest ih =>
    obtain ⟨name, -, -, -, hstep⟩ := declareGlobals_cons.mp hstep
    have hnamed : BuildState.Sound equates { state with globals := name.ident :: state.globals } :=
      ⟨h.actions, h.captures, h.macros, h.numbers⟩
    have hadded : BuildState.Follows equates _
        (BuildState.add _ (.setGlobal name.ident) location) := hnamed.add .nil
    obtain ⟨hnext, hsources⟩ := ih hadded.1 hstep
    exact ⟨hnext, hsources.trans hadded.2⟩

/-- The start of a macro. -/
theorem Sound.beginMacro (h : state.Sound equates) {label : Option (Spanned String)}
    {variadic : Bool} {operands : List Expr} {location : Location}
    (hstep : state.beginMacro label variadic operands location = .ok next) :
    state.Follows equates next := by
  obtain ⟨found, parameters, -, -, -, -, rfl⟩ := beginMacro_eq_ok.mp hstep
  have hmacros : BuildState.Sound equates
      { state with macros := state.macros.put found.node ⟨parameters, variadic, []⟩ } := by
    refine ⟨h.actions, h.captures, fun name definition hfound => ?_, h.numbers⟩
    rw [Table.get?_put] at hfound
    split at hfound
    case isTrue =>
      cases hfound
      exact .nil
    case isFalse => exact h.macros name definition hfound
  exact hmacros.enter (by rfl)

/-- The end of a macro, whose body becomes that of its definition. -/
theorem Sound.endMacro (h : state.Sound equates) {operands : List Expr}
    (hstep : state.endMacro operands = .ok next) : state.Follows equates next := by
  obtain ⟨-, name, body, opened, rest, hcaptures, rfl⟩ := endMacro_eq_ok.mp hstep
  obtain ⟨hbody, houter⟩ := h.outer hcaptures
  refine ⟨⟨h.actions, houter, ?_, h.numbers⟩, rfl⟩
  intro other definition hfound
  rw [Table.get?_alter] at hfound
  split at hfound
  case isTrue =>
    obtain ⟨old, -, rfl⟩ := Option.map_eq_some_iff.mp hfound
    exact hbody
  case isFalse => exact h.macros other definition hfound

/-- The next arm of a conditional block. -/
theorem Sound.nextArm (h : state.Sound equates) {condition : Option Expr} {location : Location}
    (hstep : state.nextArm condition location = .ok next) : state.Follows equates next := by
  obtain ⟨arms, current, body, armLocation, opened, rest, hcaptures, rfl⟩ := nextArm_eq_ok.mp hstep
  obtain ⟨hinner, houter⟩ := h.outer hcaptures
  refine ⟨h.withCaptures (List.forall_mem_cons.mpr ⟨?_, houter⟩), rfl⟩
  intro operand hoperand
  rw [Capture.operands, armOperands_append, bodyOperands, List.append_nil] at hoperand
  exact hinner operand hoperand

/-- The end of a conditional block. -/
theorem Sound.endConditional (h : state.Sound equates) (hstep : state.endConditional = .ok next) :
    state.Follows equates next := by
  obtain ⟨arms, condition, body, armLocation, opened, rest, hcaptures, rfl⟩ :=
    endConditional_eq_ok.mp hstep
  obtain ⟨hinner, houter⟩ := h.outer hcaptures
  refine (h.withCaptures houter).append ?_
  intro operand hoperand
  rw [Action.operands, armOperands_append] at hoperand
  exact hinner operand hoperand

/-- The end of a loop. -/
theorem Sound.endLoop (h : state.Sound equates) (hstep : state.endLoop = .ok next) :
    state.Follows equates next := by
  obtain ⟨body, opened, rest, hcaptures, rfl⟩ := endLoop_eq_ok.mp hstep
  obtain ⟨hinner, houter⟩ := h.outer hcaptures
  exact (h.withCaptures houter).append hinner

/-- A statement with sound operands, by its effect. -/
theorem Sound.of_effect (h : state.Sound equates) {effect : Effect} {operands : List Expr}
    {location : Location} (hoperands : SoundOperands equates operands)
    (hdraws : effect.Draws operands) (hstep : effect.apply state location = .ok next) :
    state.Follows equates next := by
  cases effect with
  | add operation =>
    cases hstep
    exact h.add (hoperands.mono hdraws.1)
  | call name arguments =>
    cases hstep
    exact h.append (hoperands.mono hdraws)
  | declareGlobals operands => exact h.declareGlobals hstep
  | beginMacro label variadic operands => exact h.beginMacro hstep
  | endMacro operands => exact h.endMacro hstep
  | openConditional condition =>
    cases hstep
    exact h.enter (by rfl)
  | nextArm condition => exact h.nextArm hstep
  | endConditional => exact h.endConditional hstep
  | openLoop =>
    cases hstep
    exact h.enter (by rfl)
  | endLoop => exact h.endLoop hstep

/-- The label of a line. -/
theorem Sound.declare (h : state.Sound equates) (location : Location)
    (label : Option (Spanned String)) (statements : List Statement) :
    state.Follows equates (state.declare location label statements) := by
  obtain hsame | ⟨found, -, hadded⟩ := state.declare_eq location label statements
  · rw [hsame]
    exact ⟨h, rfl⟩
  · have hnamed : BuildState.Sound equates { state with labels := found.node :: state.labels } :=
      ⟨h.actions, h.captures, h.macros, h.numbers⟩
    rw [hadded]
    exact hnamed.add .nil

/-- An equate of a line, whose number is sound unless it takes its width over. -/
theorem Sound.defineEquate (h : state.Sound equates) {file : SourceFile} {line : Line}
    {name : Spanned String} {value : Expr} (hfile : file ∈ state.sources) (hline : file.Has line)
    (hbody : line.body = .equate name value)
    (hstep : state.defineEquate name.node value = .ok next) : state.Follows equates next := by
  obtain ⟨-, -, -, bound, number, hbound, hnumber, rfl⟩ := defineEquate_eq_ok.mp hstep
  have hliterals : value.SoundLiterals state.equates :=
    hline.sound value (by rw [hbody]; exact List.mem_singleton_self value)
  refine ⟨⟨h.actions, h.captures, h.macros, fun other n hfound => ?_⟩, rfl⟩
  rw [Table.get?_put] at hfound
  split at hfound
  case isFalse => exact h.numbers other n hfound
  case isTrue hname =>
    subst hname
    obtain rfl := Option.some.inj hfound
    have hsound := Expr.collapse_sound (fun _ _ h => by cases h)
      (bindEquates_sound hliterals hbound) hnumber
    refine hsound.imp id fun htakes => .intro hfile hline hbody hbound hnumber htakes ?_
    exact fun earlier m hm hunsound => (h.numbers earlier m hm).resolve_left hunsound

/-- A state that keeps its sources among others and is sound. -/
def Reaches (equates : Table Number) (state next : BuildState) : Prop :=
  next.Sound equates ∧ ∀ file ∈ state.sources, file ∈ next.sources

/-- Keeping the sources is a way of keeping them among others. -/
theorem Follows.reaches (h : state.Follows equates next) : state.Reaches equates next :=
  ⟨h.1, fun _ hfile => h.2 ▸ hfile⟩

/-- One state after the other. -/
theorem Reaches.trans {mid : BuildState} (hmid : state.Reaches equates mid)
    (h : mid.Reaches equates next) : state.Reaches equates next :=
  ⟨h.1, fun file hfile => h.2 file (hmid.2 file hfile)⟩

end BuildState

/-- A builder of lines that are found in the sources. -/
def BuildsSound (equates : Table Number) (build : LineBuilder) : Prop :=
  ∀ lines state next, state.Sound equates →
    (∀ line ∈ lines, ∃ file ∈ state.sources, file.Has line) →
      build lines state = .ok next → state.Reaches equates next

section Building

variable {search : AssetSearch} {deeper : Option LineBuilder} {state next : BuildState}

/-- The lines of an included file are built like any others. -/
theorem includeFile_sound (hdeeper : ∀ build, deeper = some build → BuildsSound equates build)
    {operands : List Expr} {location : Location} (h : state.Sound equates)
    (hstep : includeFile search deeper operands location state = .ok next) :
    state.Reaches equates next := by
  cases deeper with
  | none => exact absurd hstep includeFile_none
  | some build =>
    rw [includeFile_eq_openInclude, bind_eq_ok] at hstep
    obtain ⟨⟨opened, lines⟩, hopened, hlines⟩ := hstep
    obtain ⟨path, asset, text, read, -, -, -, -, hread, rfl, rfl⟩ := openInclude_eq_ok.mp hopened
    have hregistered : ({ state with
        sources := state.sources ++ [⟨asset.path, text⟩]
        warnings := state.warnings ++ read.warnings } : BuildState).Sound equates := by
      refine ⟨h.actions, h.captures, h.macros, fun name n hfound => ?_⟩
      exact (h.numbers name n hfound).imp_right fun htakes =>
        htakes.mono fun file hfile => List.mem_append_left _ hfile
    obtain ⟨hadded, hsources⟩ : BuildState.Follows equates _
        (BuildState.add _ (.includeSource path) location) := hregistered.add .nil
    obtain ⟨hnext, hkept⟩ := hdeeper build rfl _ _ next hadded (fun line hline => by
      rw [hsources]
      exact ⟨⟨asset.path, text⟩, List.mem_append_right _ (List.mem_singleton_self _), _, _, read,
        hread, hline⟩) hlines
    refine ⟨hnext, fun file hfile => hkept file ?_⟩
    rw [hsources]
    exact List.mem_append_left _ hfile

/-- A statement with sound operands. -/
theorem buildStatement_sound (hdeeper : ∀ build, deeper = some build → BuildsSound equates build)
    {label : Option (Spanned String)} {location : Location} {statement : Statement}
    (hoperands : SoundOperands equates statement.operands) (h : state.Sound equates)
    (hstep : buildStatement search deeper label location state statement = .ok next) :
    state.Reaches equates next := by
  cases hincludes : statement.includes with
  | true =>
    rw [buildStatement_of_includes hincludes] at hstep
    exact includeFile_sound hdeeper h hstep
  | false =>
    rw [buildStatement_of_not_includes hincludes deeper none] at hstep
    obtain ⟨effect, happly, -, hdraws, -⟩ := buildStatement_fits hincludes hstep
    exact (h.of_effect hoperands hdraws happly).reaches

/-- A line of a registered file. -/
theorem buildLine_sound (hdeeper : ∀ build, deeper = some build → BuildsSound equates build)
    {line : Line} (hline : ∃ file ∈ state.sources, file.Has line) (h : state.Sound equates)
    (hstep : buildLine search deeper state line = .ok next) : state.Reaches equates next := by
  obtain ⟨file, hfile, hhas⟩ := hline
  have hoperands : SoundOperands equates line.body.operands := hhas.sound
  cases hbody : line.body with
  | equate name value =>
    simp only [buildLine, hbody] at hstep
    exact (h.defineEquate hfile hhas hbody (BuildState.run_eq_ok.mp hstep)).reaches
  | statements label statements =>
    have hstatements (statement : Statement) (hmem : statement ∈ statements) :
        SoundOperands equates statement.operands := by
      intro operand hoperand
      apply hoperands operand
      rw [hbody]
      exact List.mem_flatMap.mpr ⟨statement, hmem, hoperand⟩
    rw [buildLine_eq deeper line hbody] at hstep
    refine foldlM_invariant ?_ (h.declare line.location label statements).reaches hstep
    intro statement hmem mid later hmid hlater
    exact hmid.trans (buildStatement_sound hdeeper (hstatements statement hmem) hmid.1 hlater)

/-- Lines of registered files, one after the other. -/
theorem foldlM_buildLine_sound
    (hdeeper : ∀ build, deeper = some build → BuildsSound equates build) :
    BuildsSound equates fun lines state => lines.foldlM (buildLine search deeper) state := by
  intro lines state next h hlines hstep
  refine foldlM_invariant ?_ (⟨h, fun _ hmem => hmem⟩ : state.Reaches equates state) hstep
  intro line hline mid later hmid hlater
  obtain ⟨file, hfile, hhas⟩ := hlines line hline
  exact hmid.trans (buildLine_sound hdeeper ⟨file, hmid.2 file hfile, hhas⟩ hmid.1 hlater)

/-- Lines of registered files, with includes nested to any depth. -/
theorem buildLines_sound (depth : Nat) : BuildsSound equates (buildLines search depth) := by
  induction depth with
  | zero => exact foldlM_buildLine_sound fun build hbuild => by cases hbuild
  | succ depth ih =>
    refine foldlM_buildLine_sound fun build hbuild => ?_
    cases hbuild
    exact ih

/-- A program that is built has sound literals, in its actions and in its macros, and every equate
with a width that does not hold its number takes it over. -/
theorem buildProgram_sound {main : SourceFile} {source : SourceLines} {program : Program}
    (hread : readSource 0 main.name main.text [] = .ok source)
    (hbuilt : buildProgram search main source.lines = .ok program) :
    SoundOperands equates (bodyOperands program.actions) ∧
      SoundMacros equates program.macros ∧
      ∀ name n, program.equates.get? name = some n →
        n.Sound ∨ program.sources.TakesWidth name n := by
  obtain ⟨state, hstate, hbuilt⟩ := bind_eq_ok.mp hbuilt
  have hinitial : (BuildState.initial [main]).Sound equates :=
    ⟨.nil, (fun _ h => by cases h), (fun _ _ h => by cases h), (fun _ _ h => by cases h)⟩
  obtain ⟨hsound, -⟩ := buildLines_sound _ source.lines _ state hinitial (fun line hline =>
    ⟨main, List.mem_singleton_self main, 0, [], source, hread, hline⟩) hstate
  split at hbuilt
  case h_1 => cases BuildState.run_eq_ok.mp hbuilt
  case h_2 =>
    cases hbuilt
    exact ⟨hsound.actions, hsound.macros, hsound.numbers⟩

end Building

end Asm65816
