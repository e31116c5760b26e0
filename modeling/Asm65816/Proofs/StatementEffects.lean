import Asm65816.Proofs.BlockGrammar
import Asm65816.Proofs.LinePositions

/-!
# What a statement does

Apart from `.INCLUDE`, every statement has one of a few effects on the open blocks and the actions.
Which one it is depends on the words of the statement, the equates and the names of the macros, and
neither on its place nor on anything else that was built before.
-/

namespace Asm65816

/-- The operands of an operation. -/
def Operation.operands : Operation → List Expr
  | .setOrigin operand => [operand]
  | .instruction _ operands => operands
  | .data _ operands => operands
  | .fill _ count value => [count, value]
  | .flow (.caseStart operand) => [operand]
  | _ => []

/-- What a statement does to the open blocks and the actions. -/
inductive Effect where
  | add (operation : Operation)
  | call (name : String) (operands : List Expr)
  | declareGlobals (operands : List Expr)
  | beginMacro (label : Option (Spanned String)) (variadic : Bool) (operands : List Expr)
  | endMacro (operands : List Expr)
  | openConditional (condition : Expr)
  | nextArm (condition : Option Expr)
  | endConditional
  | openLoop
  | endLoop

namespace Effect

/-- The state after a statement at a location. -/
def apply (state : BuildState) (location : Location) : Effect → Except Fault BuildState
  | add operation => .ok (state.add operation location)
  | call name operands => .ok (state.append (.callMacro name operands location))
  | declareGlobals operands => state.declareGlobals location 1 operands
  | beginMacro label variadic operands => state.beginMacro label variadic operands location
  | endMacro operands => state.endMacro operands
  | openConditional condition =>
    .ok (state.enter (.conditional [] (some condition) [] location location))
  | nextArm condition => state.nextArm condition location
  | endConditional => state.endConditional
  | openLoop => .ok (state.enter (.argumentLoop [] location))
  | endLoop => state.endLoop

/-- Whether the statement ends the innermost block or one of its arms. -/
def closes : Effect → Bool
  | endMacro _ | nextArm _ | endConditional | endLoop => true
  | _ => false

/-- What an action of the effect is made of: operands of the statement, and no request of its own to
make a name global. -/
def Draws (operands : List Expr) : Effect → Prop
  | add operation => operation.operands ⊆ operands ∧ ∀ name, operation ≠ .setGlobal name
  | call _ arguments => arguments ⊆ operands
  | _ => True

/-- An operation without operands draws on any. -/
theorem Draws.of_nil {operation : Operation} {operands : List Expr}
    (hoperands : operation.operands = []) (hnot : ∀ name, operation ≠ .setGlobal name) :
    (add operation).Draws operands :=
  ⟨by rw [hoperands]; exact List.nil_subset _, hnot⟩

end Effect

/-- The directives that end a block or an arm of it. -/
def closingDirectives : List String := ["ENDMACRO", "ELIF", "ELSE", "ENDIF", "ENDVALOOP"]

/-- Whether the statement ends the innermost block or one of its arms. -/
def Statement.closesBlock (statement : Statement) : Bool :=
  statement.directive?.any closingDirectives.contains

/-- The effects that a statement can have by its words: the directive that it is, if it is one, the
label of its line and its operands. -/
inductive Effect.Fits (directive? : Option String) (label : Option (Spanned String))
    (operands : List Expr) : Effect → Prop where
  | add {operation : Operation} (noBlock : directive?.bind BlockSign.ofDirective? = none)
      (notGlobal : directive? ≠ some "GLOBAL") : Fits directive? label operands (.add operation)
  | call {name : String} {arguments : List Expr} (plain : directive? = none) :
      Fits directive? label operands (.call name arguments)
  | declareGlobals (named : directive? = some "GLOBAL") :
      Fits directive? label operands (.declareGlobals operands)
  | beginMacro {variadic : Bool} (named : directive? = some "MACRO") :
      Fits directive? label operands (.beginMacro (label.map Spanned.unplaced) variadic operands)
  | endMacro (named : directive? = some "ENDMACRO") :
      Fits directive? label operands (.endMacro operands)
  | openConditional {condition : Expr} (named : directive? = some "IF")
      (single : operands = [condition]) :
      Fits directive? label operands (.openConditional condition)
  | elseIf {condition : Expr} (named : directive? = some "ELIF")
      (single : operands = [condition]) :
      Fits directive? label operands (.nextArm (some condition))
  | otherwise (named : directive? = some "ELSE") (empty : operands = []) :
      Fits directive? label operands (.nextArm none)
  | endConditional (named : directive? = some "ENDIF") :
      Fits directive? label operands .endConditional
  | openLoop (named : directive? = some "VALOOP") : Fits directive? label operands .openLoop
  | endLoop (named : directive? = some "ENDVALOOP") : Fits directive? label operands .endLoop

/-- A directive that is no block directive closes no block. -/
theorem not_closing_of_noBlock {directive? : Option String}
    (h : directive?.bind BlockSign.ofDirective? = none) :
    directive?.any closingDirectives.contains = false := by
  cases directive? with
  | none => rfl
  | some name =>
    rw [Option.any_some, List.contains_eq_mem, decide_eq_false_iff_not]
    simp only [closingDirectives, List.mem_cons, List.not_mem_nil, or_false]
    rintro (rfl | rfl | rfl | rfl | rfl) <;> cases h

/-- Whether an effect ends a block shows in the name of the directive. -/
theorem Effect.Fits.closes_eq {directive? : Option String} {label : Option (Spanned String)}
    {operands : List Expr} {effect : Effect} (h : effect.Fits directive? label operands) :
    effect.closes = directive?.any closingDirectives.contains := by
  cases h with
  | add noBlock notGlobal => exact (not_closing_of_noBlock noBlock).symm
  | call plain =>
    rw [plain]
    rfl
  | _ named =>
    rw [named]
    rfl

/-- A flow statement takes its operand over. -/
theorem operands_of_flowRead {keyword : String} {operands : List Expr} {statement : FlowStatement}
    (h : FlowStatement.read keyword operands = .ok statement) :
    (Operation.flow statement).operands ⊆ operands := by
  cases statement with
  | caseStart operand =>
    have hcase : operands = [operand] := by
      unfold FlowStatement.read at h
      split at h
      case h_1 | h_2 | h_3 =>
        obtain ⟨condition, -, hstatement⟩ := map_eq_ok.mp h
        cases hstatement
      case h_4 =>
        split at h
        · split at h
          · cases h
          · cases h
        · cases h
      case h_5 =>
        split at h
        · obtain ⟨-, h⟩ := demand_eq_ok.mp h
          cases h
          rfl
        · cases h
      all_goals
        obtain ⟨-, h⟩ := demand_eq_ok.mp h
        cases h
    rw [hcase]
    exact List.Subset.refl _
  | _ => exact List.nil_subset _

theorem beginMacro_unplaced (state : BuildState) (label : Option (Spanned String))
    (variadic : Bool) (operands : List Expr) (location : Location) :
    state.beginMacro (label.map Spanned.unplaced) variadic operands location =
      state.beginMacro label variadic operands location := by
  cases label <;> rfl

/-- A directive has an effect that depends on the equates only. It adds no instruction. -/
theorem directive_effect {state next : BuildState} {name : String}
    {label : Option (Spanned String)} {ellipsis : Bool} {operands : List Expr}
    {location : Location}
    (h : state.directive name label ellipsis operands location = .ok next) :
    ∃ effect : Effect, effect.apply state location = .ok next ∧
      effect.Fits (some name) label operands ∧ effect.Draws operands ∧
      (∀ mnemonic found, effect ≠ .add (.instruction mnemonic found)) ∧
      ∀ (other : BuildState) (label' : Option (Spanned String)) (location : Location),
        other.equates = state.equates →
          label'.map Spanned.unplaced = label.map Spanned.unplaced →
            other.directive name label' ellipsis operands location =
              effect.apply other location := by
  unfold BuildState.directive at h
  split at h
  case h_1 | h_2 | h_3 | h_4 | h_11 =>
    obtain ⟨_, hnone, h⟩ := bind_eq_ok.mp h
    refine ⟨.add _, h, .add rfl (by simp), .of_nil rfl (by simp), by simp,
      fun other label location hequates hlabel => ?_⟩
    simp only [BuildState.directive, hnone]
    rfl
  case h_5 | h_6 | h_7 =>
    obtain ⟨hsome, h⟩ := refuse_eq_ok.mp h
    refine ⟨.add _, h, .add rfl (by simp), ⟨List.Subset.refl _, by simp⟩, by simp,
      fun other label location hequates hlabel => ?_⟩
    simp only [BuildState.directive, hsome]
    rfl
  case h_8 | h_9 =>
    split at h
    case h_1 =>
      refine ⟨.add _, h, .add rfl (by simp), ⟨List.Subset.refl _, by simp⟩, by simp,
        fun other label location hequates hlabel => ?_⟩
      simp only [BuildState.directive]
      rfl
    case h_2 => cases h
  case h_10 =>
    obtain ⟨hsome, h⟩ := refuse_eq_ok.mp h
    refine ⟨.declareGlobals _, h, .declareGlobals rfl, trivial, by simp,
      fun other label location hequates hlabel => ?_⟩
    simp only [BuildState.directive, hsome]
    rfl
  case h_12 =>
    obtain ⟨path, hpath, h⟩ := bind_eq_ok.mp h
    refine ⟨.add _, h, .add rfl (by simp), .of_nil rfl (by simp), by simp,
      fun other label location hequates hlabel => ?_⟩
    simp only [BuildState.directive, hpath]
    rfl
  case h_13 =>
    rw [← beginMacro_unplaced] at h
    refine ⟨.beginMacro _ _ _, h, .beginMacro rfl, trivial, by simp,
      fun other label location hequates hlabel => ?_⟩
    rw [← hlabel]
    exact (beginMacro_unplaced _ _ _ _ _).symm
  case h_14 =>
    exact ⟨.endMacro _, h, .endMacro rfl, trivial, by simp,
      fun other label location hequates hlabel => rfl⟩
  case h_15 =>
    obtain ⟨operand, hoperand, h⟩ := bind_eq_ok.mp h
    obtain rfl := expectOne_eq_ok hoperand
    refine ⟨.add _, h, .add rfl (by simp), ⟨List.Subset.refl _, by simp⟩, by simp,
      fun other label location hequates hlabel => ?_⟩
    simp only [BuildState.directive, hoperand]
    rfl
  case h_16 =>
    obtain ⟨operation, hoperation, h⟩ := bind_eq_ok.mp h
    obtain ⟨segment, start, size, fileOffset, rfl⟩ := segmentOperation_eq_ok hoperation
    refine ⟨.add _, h, .add rfl (by simp), .of_nil rfl (by simp), by simp,
      fun other label location hequates hlabel => ?_⟩
    simp only [BuildState.directive, hequates, hoperation]
    rfl
  case h_17 =>
    obtain ⟨condition, hcondition, h⟩ := bind_eq_ok.mp h
    refine ⟨.openConditional _, h, .openConditional rfl (expectOne_eq_ok hcondition), trivial,
      by simp, fun other label location hequates hlabel => ?_⟩
    simp only [BuildState.directive, hcondition]
    rfl
  case h_18 =>
    obtain ⟨condition, hcondition, h⟩ := bind_eq_ok.mp h
    refine ⟨.nextArm _, h, .elseIf rfl (expectOne_eq_ok hcondition), trivial, by simp,
      fun other label location hequates hlabel => ?_⟩
    simp only [BuildState.directive, hcondition]
    rfl
  case h_19 =>
    obtain ⟨_, hnone, h⟩ := bind_eq_ok.mp h
    refine ⟨.nextArm _, h, .otherwise rfl (expectNone_eq_ok hnone), trivial, by simp,
      fun other label location hequates hlabel => ?_⟩
    simp only [BuildState.directive, hnone]
    rfl
  case h_20 =>
    obtain ⟨_, hnone, h⟩ := bind_eq_ok.mp h
    refine ⟨.endConditional, h, .endConditional rfl, trivial, by simp,
      fun other label location hequates hlabel => ?_⟩
    simp only [BuildState.directive, hnone]
    rfl
  case h_21 =>
    obtain ⟨_, hnone, h⟩ := bind_eq_ok.mp h
    refine ⟨.openLoop, h, .openLoop rfl, trivial, by simp,
      fun other label location hequates hlabel => ?_⟩
    simp only [BuildState.directive, hnone]
    rfl
  case h_22 =>
    obtain ⟨_, hnone, h⟩ := bind_eq_ok.mp h
    refine ⟨.endLoop, h, .endLoop rfl, trivial, by simp,
      fun other label location hequates hlabel => ?_⟩
    simp only [BuildState.directive, hnone]
    rfl
  case h_23 =>
    obtain ⟨_, hnone, h⟩ := bind_eq_ok.mp h
    refine ⟨.add _, h, .add ?_ ?_, .of_nil rfl (by simp), by simp,
      fun other label location hequates hlabel => ?_⟩
    · rw [Option.bind_some]
      unfold BlockSign.ofDirective?
      split <;> first | contradiction | rfl
    · simpa using ‹¬name = "GLOBAL"›
    · simp only [BuildState.directive, hnone]
      rfl

theorem Statement.of_unplaced_eq {first second : Statement}
    (h : second.unplaced = first.unplaced) :
    second.name.node = first.name.node ∧ second.operands = first.operands ∧
      second.ellipsis = first.ellipsis := by
  obtain ⟨hname, hoperands, hellipsis, -⟩ := Statement.mk.inj h
  exact ⟨(Spanned.mk.inj hname).1, hoperands, hellipsis⟩

/-- Whether the label of a line names a macro does not depend on places. -/
theorem definesMacro_unplaced {statements statements' : List Statement}
    (h : statements'.map Statement.unplaced = statements.map Statement.unplaced) :
    (statements'.head?.elim false fun first => first.isNamed ".MACRO") =
      statements.head?.elim false fun first => first.isNamed ".MACRO" := by
  cases statements with
  | nil =>
    obtain rfl := List.map_eq_nil_iff.mp h
    rfl
  | cons first others =>
    obtain ⟨first', others', rfl, hfirst, -⟩ := List.map_eq_cons_iff.mp h
    obtain ⟨hname, -⟩ := Statement.of_unplaced_eq hfirst
    simp only [List.head?_cons, Option.elim_some, Statement.isNamed, hname]

/-- A statement that is no directive has an effect that depends on the macros only. -/
theorem plainStatement_effect {state next : BuildState} {statement : Statement}
    {location : Location} (h : state.plainStatement statement location = .ok next) :
    ∃ effect : Effect, effect.apply state location = .ok next ∧
      (∀ label operands, effect.Fits none label operands) ∧ effect.Draws statement.operands ∧
      ∀ (other : BuildState) (statement' : Statement) (location : Location),
        (∀ name, other.macros.has name = state.macros.has name) →
          statement'.unplaced = statement.unplaced →
            other.plainStatement statement' location = effect.apply other location := by
  unfold BuildState.plainStatement at h
  dsimp only at h
  split at h
  case isTrue hmacro =>
    refine ⟨.call _ _, h, fun _ _ => .call rfl, List.Subset.refl _,
      fun other statement' location hmacros hsame => ?_⟩
    obtain ⟨hname, hoperands, -⟩ := Statement.of_unplaced_eq hsame
    simp only [BuildState.plainStatement, hname, hoperands, hmacros, hmacro, if_true]
    rfl
  case isFalse hmacro =>
    split at h
    case isTrue hflow =>
      obtain ⟨flow, hread, h⟩ := bind_eq_ok.mp h
      refine ⟨.add _, h, fun _ _ => .add rfl (by simp), ⟨operands_of_flowRead hread, by simp⟩,
        fun other statement' location hmacros hsame => ?_⟩
      obtain ⟨hname, hoperands, -⟩ := Statement.of_unplaced_eq hsame
      simp only [BuildState.plainStatement, hname, hoperands, hmacros, hmacro, hflow,
        if_true, hread]
      rfl
    case isFalse hflow =>
      refine ⟨.add _, h, fun _ _ => .add rfl (by simp), ⟨List.Subset.refl _, by simp⟩,
        fun other statement' location hmacros hsame => ?_⟩
      obtain ⟨hname, hoperands, -⟩ := Statement.of_unplaced_eq hsame
      simp only [BuildState.plainStatement, hname, hoperands, hmacros, hmacro, hflow]
      rfl

/-- A statement that includes nothing is a directive or a plain statement. -/
theorem buildStatement_eq_ok {search : AssetSearch} {state next : BuildState}
    {label : Option (Spanned String)} {location : Location} {statement : Statement}
    (hincludes : statement.includes = false) :
    buildStatement search none label location state statement = .ok next ↔
      statement.misplacesEllipsis = false ∧
        ((∃ name, statement.directive? = some name ∧
            state.directive name label statement.ellipsis statement.operands
              (location.narrow statement.span) = .ok next) ∨
          (statement.directive? = none ∧
            state.plainStatement statement (location.narrow statement.span) = .ok next)) := by
  cases hellipsis : statement.misplacesEllipsis with
  | true =>
    unfold Statement.misplacesEllipsis at hellipsis
    simp only [buildStatement, hellipsis, if_true, Bool.true_eq_false, false_and, iff_false]
    intro h
    cases BuildState.run_eq_ok.mp h
  | false =>
    rw [Statement.includes, hellipsis] at hincludes
    unfold Statement.misplacesEllipsis at hellipsis
    simp only [buildStatement, hellipsis, Bool.false_eq_true, if_false, true_and]
    split
    case h_1 rest hname =>
      have hdirective : statement.directive? = some (upperAscii (String.ofList rest)) := by
        simp only [Statement.directive?, hname]
      rw [hdirective] at hincludes ⊢
      split
      case h_1 hupper =>
        rw [hupper] at hincludes
        cases hincludes
      case h_2 => simp [BuildState.run_eq_ok]
    case h_2 hname =>
      have hdirective : statement.directive? = none := by
        unfold Statement.directive?
        split
        case h_1 rest hrest => exact absurd hrest (hname rest)
        case h_2 => rfl
      simp [hdirective, BuildState.run_eq_ok]

/-- What a statement is does not depend on its place. -/
theorem Statement.sort_unplaced {first second : Statement}
    (h : second.unplaced = first.unplaced) :
    second.directive? = first.directive? ∧ second.includes = first.includes ∧
      second.misplacesEllipsis = first.misplacesEllipsis := by
  obtain ⟨hname, -, hellipsis⟩ := Statement.of_unplaced_eq h
  have hdirective : second.directive? = first.directive? := by
    rw [directive?, directive?, hname]
  have hmisplaces : second.misplacesEllipsis = first.misplacesEllipsis := by
    rw [misplacesEllipsis, misplacesEllipsis, isNamed, isNamed, hname, hellipsis]
  refine ⟨hdirective, ?_, hmisplaces⟩
  rw [includes, includes, hdirective, hmisplaces]

/-- A statement has an effect that fits its words, draws on its operands and depends on the equates
and the macros only. -/
theorem buildStatement_fits {search : AssetSearch} {state next : BuildState}
    {label : Option (Spanned String)} {location : Location} {statement : Statement}
    (hincludes : statement.includes = false)
    (h : buildStatement search none label location state statement = .ok next) :
    ∃ effect : Effect, effect.apply state (location.narrow statement.span) = .ok next ∧
      effect.Fits statement.directive? label statement.operands ∧
      effect.Draws statement.operands ∧
      ∀ {search' : AssetSearch} {other last : BuildState} {label' : Option (Spanned String)}
        {location' : Location} {statement' : Statement}, other.equates = state.equates →
          (∀ name, other.macros.has name = state.macros.has name) →
            label'.map Spanned.unplaced = label.map Spanned.unplaced →
              statement'.unplaced = statement.unplaced →
                effect.apply other (location'.narrow statement'.span) = .ok last →
                  buildStatement search' none label' location' other statement' = .ok last := by
  obtain ⟨hellipsis, ⟨name, hname, hbuilt⟩ | ⟨hname, hbuilt⟩⟩ :=
    (buildStatement_eq_ok hincludes).mp h
  · obtain ⟨effect, happly, hfits, hdraws, -, hother⟩ := directive_effect hbuilt
    refine ⟨effect, happly, hname ▸ hfits, hdraws, ?_⟩
    intro search' other last label' location' statement' hequates hmacros hlabel hsame hlast
    obtain ⟨hdirective, hincludes', hellipsis'⟩ := Statement.sort_unplaced hsame
    obtain ⟨-, hoperands, hdots⟩ := Statement.of_unplaced_eq hsame
    refine (buildStatement_eq_ok (hincludes'.trans hincludes)).mpr
      ⟨hellipsis'.trans hellipsis, .inl ⟨name, hdirective.trans hname, ?_⟩⟩
    rw [hoperands, hdots, hother other label' _ hequates hlabel]
    exact hlast
  · obtain ⟨effect, happly, hfits, hdraws, hother⟩ := plainStatement_effect hbuilt
    refine ⟨effect, happly, hname ▸ hfits _ _, hdraws, ?_⟩
    intro search' other last label' location' statement' hequates hmacros hlabel hsame hlast
    obtain ⟨hdirective, hincludes', hellipsis'⟩ := Statement.sort_unplaced hsame
    refine (buildStatement_eq_ok (hincludes'.trans hincludes)).mpr
      ⟨hellipsis'.trans hellipsis, .inr ⟨hdirective.trans hname, ?_⟩⟩
    rw [hother other statement' _ hmacros hsame]
    exact hlast

/-- A statement has an effect that depends on the equates and the macros only. -/
theorem buildStatement_effect {search : AssetSearch} {state next : BuildState}
    {label : Option (Spanned String)} {location : Location} {statement : Statement}
    (hincludes : statement.includes = false)
    (h : buildStatement search none label location state statement = .ok next) :
    ∃ effect : Effect, effect.apply state (location.narrow statement.span) = .ok next ∧
      effect.closes = statement.closesBlock ∧
      ∀ {search' : AssetSearch} {other last : BuildState} {label' : Option (Spanned String)}
        {location' : Location} {statement' : Statement}, other.equates = state.equates →
          (∀ name, other.macros.has name = state.macros.has name) →
            label'.map Spanned.unplaced = label.map Spanned.unplaced →
              statement'.unplaced = statement.unplaced →
                effect.apply other (location'.narrow statement'.span) = .ok last →
                  buildStatement search' none label' location' other statement' = .ok last := by
  obtain ⟨effect, happly, hfits, -, hother⟩ := buildStatement_fits hincludes h
  exact ⟨effect, happly, hfits.closes_eq, hother⟩

end Asm65816
