import Asm65816.Proofs.NameTables

/-!
# The bodies of blocks

Actions are gathered in the bodies of macros, of the arms of conditional blocks and of loops.
Flattened, these bodies say for each action which blocks it is in. While a program is built, its
finished parts and the bodies of its open blocks hold all actions so far in their order, and no
statement moves an action that was gathered before.
-/

namespace Asm65816

/-- Changing the value of the last name leaves the others. -/
theorem Table.alter_snoc {α : Type} {table : Table α} {name : String}
    (h : name ∉ table.map Prod.fst) (value : α) (change : α → α) :
    alter (table ++ [(name, value)]) name change = table ++ [(name, change value)] := by
  induction table with
  | nil => exact if_pos rfl
  | cons entry rest ih =>
    obtain ⟨key, old⟩ := entry
    rw [List.map_cons, List.mem_cons, not_or] at h
    rw [List.cons_append, alter, if_neg (Ne.symm h.1), ih h.2]
    rfl

/-- A body that an action can be in. -/
inductive Enclosure where
  | macroBody (name : String)
  /-- The arm of a block, with its condition and the places of both. -/
  | arm (block : Location) (condition : Option Expr) (arm : Location)
  | loop (block : Location)

/-- What a stack of open blocks knows of a body. -/
def Enclosure.block : Enclosure → OpenBlock
  | macroBody _ => .macroBody
  | arm _ (some _) _ => .ifPart
  | arm _ none _ => .elsePart
  | loop _ => .loop

/-- An action and the bodies around it, innermost first. -/
structure EnclosedAction where
  around : List Enclosure
  action : Action

/-! ## Flattened bodies -/

mutual

/-- The actions that an action stands for, each with the bodies around it. -/
def Action.enclosed (around : List Enclosure) : Action → List EnclosedAction
  | .operation operation location => [⟨around, .operation operation location⟩]
  | .callMacro name operands location => [⟨around, .callMacro name operands location⟩]
  | .conditional arms location => enclosedArms around location arms
  | .argumentLoop body location => enclosedBody (.loop location :: around) body

/-- The actions of a body. -/
def enclosedBody (around : List Enclosure) : List Action → List EnclosedAction
  | [] => []
  | action :: rest => action.enclosed around ++ enclosedBody around rest

/-- The actions in the arms of a block. -/
def enclosedArms (around : List Enclosure) (block : Location) :
    List ConditionalArm → List EnclosedAction
  | [] => []
  | .mk condition body location :: rest =>
    enclosedBody (.arm block condition location :: around) body ++ enclosedArms around block rest

end

theorem enclosedBody_append (around : List Enclosure) (first second : List Action) :
    enclosedBody around (first ++ second) =
      enclosedBody around first ++ enclosedBody around second := by
  induction first with
  | nil => rfl
  | cons action rest ih => rw [List.cons_append, enclosedBody, ih, enclosedBody, List.append_assoc]

theorem enclosedBody_snoc (around : List Enclosure) (body : List Action) (action : Action) :
    enclosedBody around (body ++ [action]) =
      enclosedBody around body ++ action.enclosed around := by
  rw [enclosedBody_append, enclosedBody, enclosedBody, List.append_nil]

theorem enclosedArms_snoc (around : List Enclosure) (block : Location)
    (arms : List ConditionalArm) (condition : Option Expr) (body : List Action)
    (location : Location) :
    enclosedArms around block (arms ++ [.mk condition body location]) =
      enclosedArms around block arms ++
        enclosedBody (.arm block condition location :: around) body := by
  induction arms with
  | nil => exact List.append_nil _
  | cons arm rest ih =>
    obtain ⟨condition, body, location⟩ := arm
    rw [List.cons_append, enclosedArms, ih, enclosedArms, List.append_assoc]

/-- A finished part of a program. -/
inductive ProgramPart where
  | action (action : Action)
  | definition (name : String) (definition : MacroDefinition)

namespace ProgramPart

def action? : ProgramPart → Option Action
  | action found => some found
  | definition _ _ => none

def definition? : ProgramPart → Option (String × MacroDefinition)
  | action _ => none
  | definition name found => some (name, found)

/-- The actions of a part, each with the bodies around it. -/
def enclosed : ProgramPart → List EnclosedAction
  | action found => found.enclosed []
  | definition name found => enclosedBody [.macroBody name] found.body

end ProgramPart

/-! ## Open blocks -/

namespace Capture

/-- The body that is being read. -/
def enclosure : Capture → Enclosure
  | macroBody name _ _ => .macroBody name
  | conditional _ condition _ armLocation location => .arm location condition armLocation
  | argumentLoop _ location => .loop location

/-- The actions of an open block inside of some bodies. -/
def enclosed (around : List Enclosure) : Capture → List EnclosedAction
  | macroBody name body _ => enclosedBody (.macroBody name :: around) body
  | conditional arms condition body armLocation location =>
    enclosedArms around location arms ++
      enclosedBody (.arm location condition armLocation :: around) body
  | argumentLoop body location => enclosedBody (.loop location :: around) body

@[simp] theorem enclosure_append (capture : Capture) (action : Action) :
    (capture.append action).enclosure = capture.enclosure := by
  cases capture <;> rfl

theorem enclosed_append (capture : Capture) (around : List Enclosure) (action : Action) :
    (capture.append action).enclosed around =
      capture.enclosed around ++ action.enclosed (capture.enclosure :: around) := by
  cases capture with
  | macroBody | argumentLoop => exact enclosedBody_snoc _ _ _
  | conditional arms condition body armLocation location =>
    rw [append, enclosed, enclosedBody_snoc, ← List.append_assoc]
    rfl

end Capture

/-- The actions of the open blocks, innermost first, in the order in which they were gathered. -/
def enclosedCaptures : List Capture → List EnclosedAction
  | [] => []
  | capture :: rest =>
    enclosedCaptures rest ++ capture.enclosed (rest.map Capture.enclosure)

/-- Bodies that can be open at once, and the entry of the macro that is being defined. A macro is
inside of nothing. -/
inductive OpenBodies : List Enclosure → Table MacroDefinition → Prop where
  | outside : OpenBodies [] []
  | macroBody (name : String) (definition : MacroDefinition) :
      OpenBodies [.macroBody name] [(name, definition)]
  | arm (block : Location) (condition : Option Expr) (arm : Location) {around : List Enclosure}
      {pending : Table MacroDefinition} (outer : OpenBodies around pending) :
      OpenBodies (.arm block condition arm :: around) pending
  | loop (block : Location) {around : List Enclosure} {pending : Table MacroDefinition}
      (outer : OpenBodies around pending) : OpenBodies (.loop block :: around) pending

namespace OpenBodies

variable {around : List Enclosure} {pending : Table MacroDefinition}

theorem outer {body : Enclosure} (h : OpenBodies (body :: around) pending)
    (hblock : ∀ name, body ≠ .macroBody name) : OpenBodies around pending := by
  cases h with
  | macroBody name definition => exact absurd rfl (hblock name)
  | arm block condition arm outer => exact outer
  | loop block outer => exact outer

theorem of_macroBody {name : String} (h : OpenBodies (.macroBody name :: around) pending) :
    around = [] ∧ ∃ definition, pending = [(name, definition)] := by
  cases h with
  | macroBody name definition => exact ⟨rfl, definition, rfl⟩

end OpenBodies

/-- A state of the builder that has read so many sources, has the given parts finished, has gathered
the given actions and is inside of the given bodies. -/
structure BuildState.Gathers (state : BuildState) (count : Nat) (parts : List ProgramPart)
    (gathered : List EnclosedAction) (around : List Enclosure) : Prop where
  read : state.sources.length = count
  bodies : state.captures.map Capture.enclosure = around
  actions : state.actions = parts.filterMap ProgramPart.action?
  macros : ∃ pending, OpenBodies around pending ∧
    state.macros = parts.filterMap ProgramPart.definition? ++ pending
  distinct : (state.macros.map Prod.fst).Nodup
  order : parts.flatMap ProgramPart.enclosed ++ enclosedCaptures state.captures = gathered

theorem BuildState.gathers_initial (sources : Sources) :
    (initial sources).Gathers sources.length [] [] [] :=
  ⟨rfl, rfl, rfl, ⟨[], .outside, rfl⟩, List.nodup_nil, rfl⟩

namespace BuildState.Gathers

variable {state next : BuildState} {count : Nat} {parts : List ProgramPart}
  {gathered : List EnclosedAction} {around : List Enclosure}

/-- Only the open blocks, the actions and the macros count. -/
theorem of_same (h : state.Gathers count parts gathered around)
    (hsources : next.sources = state.sources)
    (hcaptures : next.captures = state.captures) (hactions : next.actions = state.actions)
    (hmacros : next.macros = state.macros) : next.Gathers count parts gathered around :=
  ⟨hsources ▸ h.read, hcaptures ▸ h.bodies, hactions ▸ h.actions, hmacros ▸ h.macros,
    hmacros ▸ h.distinct, hcaptures ▸ h.order⟩

/-- A new action comes last, inside of the bodies that are open. -/
theorem append (h : state.Gathers count parts gathered around) (action : Action) :
    ∃ parts', (state.append action).Gathers count parts' (gathered ++ action.enclosed around)
      around := by
  obtain ⟨hread, hbodies, hactions, hmacros, hdistinct, horder⟩ := h
  unfold BuildState.append
  split
  case h_1 capture rest hcaptures =>
    rw [hcaptures] at hbodies horder
    refine ⟨parts, hread, ?_, hactions, hmacros, hdistinct, ?_⟩
    · rw [← hbodies, List.map_cons, List.map_cons, Capture.enclosure_append]
    · rw [← horder, ← hbodies, enclosedCaptures, enclosedCaptures, Capture.enclosed_append,
        List.append_assoc, List.append_assoc]
      rfl
  case h_2 hcaptures =>
    rw [hcaptures] at hbodies horder
    subst hbodies
    obtain ⟨pending, hpending, hmacros⟩ := hmacros
    refine ⟨parts ++ [.action action], hread, ?_, ?_, ⟨pending, hpending, ?_⟩, hdistinct, ?_⟩
    · rw [hcaptures]
    · rw [List.filterMap_append, ← hactions]
      rfl
    · rw [List.filterMap_append, hmacros]
      simp [ProgramPart.definition?]
    · rw [hcaptures, ← horder]
      simp [enclosedCaptures, ProgramPart.enclosed]

/-- An opened block holds nothing. -/
theorem enter (h : state.Gathers count parts gathered around) {capture : Capture}
    (hempty : capture.enclosed around = [])
    (hopens : ∀ pending, OpenBodies around pending →
      OpenBodies (capture.enclosure :: around) pending) :
    (state.enter capture).Gathers count parts gathered (capture.enclosure :: around) := by
  obtain ⟨hread, hbodies, hactions, ⟨pending, hpending, hmacros⟩, hdistinct, horder⟩ := h
  refine ⟨hread, ?_, hactions, ⟨pending, hopens pending hpending, hmacros⟩, hdistinct, ?_⟩
  · rw [BuildState.enter, List.map_cons, hbodies]
  · rw [BuildState.enter, enclosedCaptures, hbodies, hempty, List.append_nil, horder]

/-- An innermost block that is taken away leaves what was gathered outside of it. -/
theorem pop {capture : Capture} {rest : List Capture}
    (h : state.Gathers count parts gathered around) (hcaptures : state.captures = capture :: rest)
    (hblock : ∀ name, capture.enclosure ≠ .macroBody name) :
    ∃ outer, around = capture.enclosure :: outer ∧ ∃ before,
      gathered = before ++ capture.enclosed outer ∧
        { state with captures := rest }.Gathers count parts before outer := by
  obtain ⟨hread, hbodies, hactions, ⟨pending, hpending, hmacros⟩, hdistinct, horder⟩ := h
  rw [hcaptures] at hbodies horder
  subst hbodies
  refine ⟨_, rfl, _, ?_, hread, rfl, hactions, ⟨pending, hpending.outer hblock, hmacros⟩, hdistinct,
    rfl⟩
  rw [← horder, enclosedCaptures, List.append_assoc]

/-- A macro begins outside of every block and under a new name. -/
theorem beginMacro (h : state.Gathers count parts gathered around) {label : Option (Spanned String)}
    {variadic : Bool} {operands : List Expr} {location : Location}
    (hbegun : state.beginMacro label variadic operands location = .ok next) :
    around = [] ∧ ∃ found, label = some found ∧
      next.Gathers count parts gathered [.macroBody found.node] := by
  obtain ⟨hread, hbodies, hactions, ⟨pending, hpending, hmacros⟩, hdistinct, horder⟩ := h
  obtain ⟨found, parameters, rfl, -, hfault, hcaptures, rfl⟩ := beginMacro_eq_ok.mp hbegun
  rw [hcaptures] at hbodies horder
  subst hbodies
  cases hpending
  have hnew := (nameFault?_eq_none hfault).2.notMacro
  rw [List.append_nil] at hmacros
  refine ⟨rfl, found, rfl, hread, ?_, hactions,
    ⟨_, .macroBody found.node ⟨parameters, variadic, []⟩, ?_⟩, ?_, ?_⟩
  · rw [BuildState.enter, hcaptures]
    rfl
  · rw [← hmacros]
    exact Table.put_of_get? _ hnew
  · rw [BuildState.enter, Table.put_of_get? _ hnew, List.map_append, List.map_singleton,
      List.nodup_append]
    refine ⟨hdistinct, List.nodup_singleton _, ?_⟩
    intro name hname other hother
    rw [List.mem_singleton.mp hother]
    rintro rfl
    exact Table.get?_eq_none_iff.mp hnew hname
  · rw [← horder, BuildState.enter, hcaptures]
    rfl

/-- The body of a macro that ends is a finished part. -/
theorem endMacro (h : state.Gathers count parts gathered around) {operands : List Expr}
    (hended : state.endMacro operands = .ok next) :
    ∃ name, around = [.macroBody name] ∧ ∃ parts', next.Gathers count parts' gathered [] := by
  obtain ⟨hread, hbodies, hactions, ⟨pending, hpending, hmacros⟩, hdistinct, horder⟩ := h
  obtain ⟨-, name, body, opened, rest, hcaptures, rfl⟩ := endMacro_eq_ok.mp hended
  rw [hcaptures] at hbodies horder
  subst hbodies
  obtain ⟨hrest, definition, rfl⟩ := hpending.of_macroBody
  obtain rfl := List.map_eq_nil_iff.mp hrest
  have hnew : name ∉ (parts.filterMap ProgramPart.definition?).map Prod.fst := by
    rw [hmacros, List.map_append, List.nodup_append] at hdistinct
    exact fun hname => hdistinct.2.2 name hname name List.mem_cons_self rfl
  refine ⟨name, rfl, parts ++ [.definition name { definition with body := body }], hread, rfl, ?_,
    ⟨[], .outside, ?_⟩, ?_, ?_⟩
  · rw [hactions, List.filterMap_append]
    exact (List.append_nil _).symm
  · rw [hmacros, Table.alter_snoc hnew, List.filterMap_append, List.append_nil]
    rfl
  · rwa [Table.map_fst_alter]
  · rw [← horder, List.flatMap_append]
    simp [enclosedCaptures, ProgramPart.enclosed, Capture.enclosed]

/-- The next arm of a conditional block follows one that has a condition. -/
theorem nextArm (h : state.Gathers count parts gathered around) {condition : Option Expr}
    {location : Location} (hnext : state.nextArm condition location = .ok next) :
    ∃ block current arm outer, around = .arm block (some current) arm :: outer ∧
      next.Gathers count parts gathered (.arm block condition location :: outer) := by
  obtain ⟨arms, current, body, armLocation, opened, rest, hcaptures, rfl⟩ := nextArm_eq_ok.mp hnext
  obtain ⟨outer, rfl, before, rfl, hpopped⟩ := h.pop hcaptures (by simp [Capture.enclosure])
  obtain ⟨hread, hbodies, hactions, ⟨pending, hpending, hmacros⟩, hdistinct, horder⟩ := hpopped
  refine ⟨opened, current, armLocation, outer, rfl, hread, ?_, hactions,
    ⟨pending, .arm _ _ _ hpending, hmacros⟩, hdistinct, ?_⟩
  · rw [List.map_cons, hbodies]
    rfl
  · rw [enclosedCaptures, hbodies, ← List.append_assoc, horder, Capture.enclosed,
      enclosedArms_snoc, enclosedBody, List.append_nil]
    rfl

/-- A finished conditional block holds what was gathered in it. -/
theorem endConditional (h : state.Gathers count parts gathered around)
    (hended : state.endConditional = .ok next) :
    ∃ block condition arm outer, around = .arm block condition arm :: outer ∧
      ∃ parts', next.Gathers count parts' gathered outer := by
  obtain ⟨arms, condition, body, armLocation, opened, rest, hcaptures, rfl⟩ :=
    endConditional_eq_ok.mp hended
  obtain ⟨outer, rfl, before, rfl, hpopped⟩ := h.pop hcaptures (by simp [Capture.enclosure])
  obtain ⟨parts', happended⟩ := hpopped.append
    (.conditional (arms ++ [.mk condition body armLocation]) opened)
  refine ⟨opened, condition, armLocation, outer, rfl, parts', ?_⟩
  rwa [Action.enclosed, enclosedArms_snoc] at happended

/-- A finished loop holds what was gathered in it. -/
theorem endLoop (h : state.Gathers count parts gathered around)
    (hended : state.endLoop = .ok next) :
    ∃ block outer, around = .loop block :: outer ∧
      ∃ parts', next.Gathers count parts' gathered outer := by
  obtain ⟨body, opened, rest, hcaptures, rfl⟩ := endLoop_eq_ok.mp hended
  obtain ⟨outer, rfl, before, rfl, hpopped⟩ := h.pop hcaptures (by simp [Capture.enclosure])
  obtain ⟨parts', happended⟩ := hpopped.append (.argumentLoop body opened)
  exact ⟨opened, outer, rfl, parts', happended⟩

/-- Making names global adds one action for each of them. -/
theorem declareGlobals (h : state.Gathers count parts gathered around) {location : Location}
    {position : Nat} {operands : List Expr}
    (hdeclared : BuildState.declareGlobals location position operands state = .ok next) :
    ∃ names : List Name, operands = names.map Expr.name ∧ ∃ parts', next.Gathers count parts'
      (gathered ++ names.map fun name =>
        ⟨around, .operation (.setGlobal name.ident) location⟩) around := by
  induction operands generalizing position state parts gathered with
  | nil =>
    cases hdeclared
    exact ⟨[], rfl, parts, by simpa using h⟩
  | cons operand rest ih =>
    obtain ⟨name, rfl, -, -, hdeclared⟩ := declareGlobals_cons.mp hdeclared
    have hsame : { state with globals := name.ident :: state.globals }.Gathers
        count parts gathered around := h.of_same rfl rfl rfl rfl
    obtain ⟨first, hfirst⟩ := hsame.append (.operation (.setGlobal name.ident) location)
    obtain ⟨names, rfl, parts', hrest⟩ := ih hfirst hdeclared
    refine ⟨name :: names, rfl, parts', ?_⟩
    rwa [Action.enclosed, List.append_assoc] at hrest

/-- An equate is no action. -/
theorem defineEquate (h : state.Gathers count parts gathered around) {name : String} {value : Expr}
    (hdefined : state.defineEquate name value = .ok next) :
    next.Gathers count parts gathered around := by
  obtain ⟨-, -, -, bound, number, -, -, rfl⟩ := defineEquate_eq_ok.mp hdefined
  exact h.of_same rfl rfl rfl rfl

end BuildState.Gathers

/-! ## Block directives -/

/-- The bodies around what follows a block directive, given the bodies around it. -/
def BlockSign.after (label : Option (Spanned String)) (operands : List Expr)
    (location : Location) : BlockSign → List Enclosure → List Enclosure
  | beginMacro, around => label.toList.map (fun label => .macroBody label.node) ++ around
  | openIf, around => .arm location operands.head? location :: around
  | elseIf, .arm block _ _ :: outer | otherwise, .arm block _ _ :: outer =>
    .arm block operands.head? location :: outer
  | openLoop, around => .loop location :: around
  | endMacro, _ :: outer | endIf, _ :: outer | endLoop, _ :: outer => outer
  | _, around => around

/-- A block directive has its turn among the open blocks, moves no action and leads into the bodies
that it should. -/
theorem BuildState.Gathers.block {state next : BuildState} {count : Nat}
    {parts : List ProgramPart} {gathered : List EnclosedAction} {around : List Enclosure}
    {directive? : Option String} {label : Option (Spanned String)} {operands : List Expr}
    {location : Location} {effect : Effect} {sign : BlockSign}
    (h : state.Gathers count parts gathered around)
    (hfits : effect.Fits directive? label operands)
    (hsign : directive?.bind BlockSign.ofDirective? = some sign)
    (happly : effect.apply state location = .ok next) :
    (∃ parts', next.Gathers count parts' gathered (sign.after label operands location around)) ∧
      sign.turn (around.map Enclosure.block) =
        some ((sign.after label operands location around).map Enclosure.block) := by
  cases hfits with
  | add noBlock notGlobal => cases noBlock.symm.trans hsign
  | call plain =>
    subst plain
    cases hsign
  | declareGlobals named =>
    subst named
    cases hsign
  | beginMacro named =>
    subst named
    cases hsign
    obtain ⟨rfl, found, hlabel, hbegun⟩ := h.beginMacro happly
    obtain ⟨label, rfl, rfl⟩ := Option.map_eq_some_iff.mp hlabel
    exact ⟨⟨parts, hbegun⟩, rfl⟩
  | endMacro named =>
    subst named
    cases hsign
    obtain ⟨name, rfl, hended⟩ := h.endMacro happly
    exact ⟨hended, rfl⟩
  | openConditional named single =>
    subst named
    cases hsign
    subst single
    cases happly
    exact ⟨⟨parts, h.enter rfl fun _ => .arm _ _ _⟩, rfl⟩
  | elseIf named single =>
    subst named
    cases hsign
    subst single
    obtain ⟨block, current, arm, outer, rfl, hnext⟩ := h.nextArm happly
    exact ⟨⟨parts, hnext⟩, rfl⟩
  | otherwise named empty =>
    subst named
    cases hsign
    subst empty
    obtain ⟨block, current, arm, outer, rfl, hnext⟩ := h.nextArm happly
    exact ⟨⟨parts, hnext⟩, rfl⟩
  | endConditional named =>
    subst named
    cases hsign
    obtain ⟨block, condition, arm, outer, rfl, hended⟩ := h.endConditional happly
    refine ⟨hended, ?_⟩
    cases condition <;> rfl
  | openLoop named =>
    subst named
    cases hsign
    cases happly
    exact ⟨⟨parts, h.enter rfl fun _ => .loop _⟩, rfl⟩
  | endLoop named =>
    subst named
    cases hsign
    obtain ⟨block, outer, rfl, hended⟩ := h.endLoop happly
    exact ⟨hended, rfl⟩

end Asm65816
