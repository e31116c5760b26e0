import Asm65816.Proofs.DeletedLines

/-!
# Deleting the bodies of arms

The body of an arm is what stands between the statement that starts the arm and the one that ends
it. A block that is opened in a body is closed in it, so that deleting exactly the lines in the
bodies of some arms deletes blocks as a whole.
-/

namespace Asm65816

/-- One of the arms is being read. -/
def InArms (arms : Location → Prop) (captures : List Capture) : Prop :=
  ∃ arm ∈ captures.filterMap Capture.arm?, arms arm

/-- The blocks that a task stands in. What ends a block, or an arm of it, stands outside of it. -/
def BuildTask.around (task : BuildTask) (captures : List Capture) : List Capture :=
  if task.closesBlock then captures.tail else captures

/-- Whether the task is a statement, or a line without statements. -/
def BuildTask.isSingle : BuildTask → Bool
  | line ⟨.statements _ (_ :: _), _⟩ => false
  | _ => true

/-- The deleted lines that the builder comes to from a state on are exactly those in the bodies of
the arms. -/
def DeletesBodies (gone : Deletion) (arms : Location → Prop) (search : AssetSearch)
    (state : BuildState) (tasks : List BuildTask) : Prop :=
  ∀ found task left, BuildsTo search state tasks found (task :: left) → task.isSingle = true →
    (task.location.isDeleted gone = true ↔ InArms arms (task.around found.captures))

/-- Each open block stands in the body of one of the arms exactly when what opened it is deleted. -/
def WholeBlocks (gone : Deletion) (arms : Location → Prop) : List Capture → Prop
  | [] => True
  | capture :: outer =>
    (capture.location.isDeleted gone = true ↔ InArms arms outer) ∧ WholeBlocks gone arms outer

section Bodies

variable {gone : Deletion} {arms : Location → Prop}

instance [DecidablePred arms] (captures : List Capture) : Decidable (InArms arms captures) :=
  inferInstanceAs (Decidable (∃ arm ∈ _, arms arm))

/-! ## Open blocks -/

/-- Where a block was opened and which arm of it is being read. -/
def Capture.outline (capture : Capture) : Location × Option Location :=
  (capture.location, capture.arm?)

theorem Capture.outline_append (capture : Capture) (action : Action) :
    (capture.append action).outline = capture.outline := by
  cases capture <;> rfl

theorem BuildState.outline_append (state : BuildState) (action : Action) :
    (state.append action).captures.map Capture.outline = state.captures.map Capture.outline := by
  unfold BuildState.append
  split
  case h_1 capture outer hstack =>
    rw [hstack, List.map_cons, List.map_cons, Capture.outline_append]
  case h_2 => rfl

theorem BuildState.outline_declareGlobals {state next : BuildState} {location : Location}
    {position : Nat} {operands : List Expr}
    (h : BuildState.declareGlobals location position operands state = .ok next) :
    next.captures.map Capture.outline = state.captures.map Capture.outline := by
  induction operands generalizing position state with
  | nil =>
    cases h
    rfl
  | cons operand others ih =>
    obtain ⟨name, -, -, -, h⟩ := BuildState.declareGlobals_cons.mp h
    exact (ih h).trans (BuildState.outline_append _ _)

theorem BuildState.outline_declare (state : BuildState) (location : Location)
    (label : Option (Spanned String)) (statements : List Statement) :
    (state.declare location label statements).captures.map Capture.outline =
      state.captures.map Capture.outline := by
  obtain hsame | ⟨found, -, hadded⟩ := state.declare_eq location label statements
  · rw [hsame]
  · rw [hadded]
    exact BuildState.outline_append _ _

theorem InArms.of_outline {captures captures' : List Capture} (h : InArms arms captures)
    (houtline : captures'.map Capture.outline = captures.map Capture.outline) :
    InArms arms captures' := by
  have harms (blocks : List Capture) :
      blocks.filterMap Capture.arm? = (blocks.map Capture.outline).filterMap Prod.snd := by
    rw [List.filterMap_map]
    rfl
  unfold InArms at h ⊢
  rwa [harms, houtline, ← harms]

theorem InArms.of_tail {captures : List Capture} (h : InArms arms captures.tail) :
    InArms arms captures := by
  obtain ⟨arm, harm, hmem⟩ := h
  obtain ⟨capture, hcapture, hsome⟩ := List.mem_filterMap.mp harm
  exact ⟨arm, List.mem_filterMap.mpr ⟨capture, List.mem_of_mem_tail hcapture, hsome⟩, hmem⟩

theorem BuildTask.inArms_of_around {task : BuildTask} {captures : List Capture}
    (h : InArms arms (task.around captures)) : InArms arms captures := by
  unfold BuildTask.around at h
  split at h
  · exact h.of_tail
  · exact h

namespace WholeBlocks

variable {captures captures' : List Capture}

theorem of_outline (h : WholeBlocks gone arms captures)
    (houtline : captures'.map Capture.outline = captures.map Capture.outline) :
    WholeBlocks gone arms captures' := by
  induction captures generalizing captures' with
  | nil =>
    obtain rfl := List.map_eq_nil_iff.mp houtline
    trivial
  | cons capture outer ih =>
    obtain ⟨capture', outer', rfl, hcapture, houter⟩ := List.map_eq_cons_iff.mp houtline
    obtain ⟨hhead, hrest⟩ := h
    have hlocation : capture'.location = capture.location := congrArg Prod.fst hcapture
    refine ⟨?_, ih hrest houter⟩
    rw [hlocation, hhead]
    exact ⟨fun hin => hin.of_outline houter, fun hin => hin.of_outline houter.symm⟩

/-- In the bodies of arms that are dead, what is left stands in one of these arms. -/
theorem inDeadArm (h : WholeBlocks gone arms captures) (hin : InArms arms captures)
    {dead : Location → Prop} (hdead : ∀ arm, arms arm → dead arm) :
    InDeadArm gone dead captures := by
  induction captures with
  | nil =>
    obtain ⟨arm, harm, -⟩ := hin
    cases harm
  | cons capture outer ih =>
    obtain ⟨hhead, hrest⟩ := h
    cases hplace : capture.location.isDeleted gone with
    | true =>
      unfold InDeadArm
      rw [List.find?_cons_of_neg (by simp [hplace])]
      exact ih hrest (hhead.mp hplace)
    | false =>
      have houtside : ¬InArms arms outer := fun hinner => by
        rw [hhead.mpr hinner] at hplace
        cases hplace
      obtain ⟨arm, harm, hmem⟩ := hin
      obtain ⟨block, hblock, hsome⟩ := List.mem_filterMap.mp harm
      rcases List.mem_cons.mp hblock with rfl | hinner
      · refine ⟨arm, ?_, hdead arm hmem⟩
        rw [List.find?_cons_of_pos (by simp [hplace])]
        exact hsome
      · exact absurd ⟨arm, List.mem_filterMap.mpr ⟨block, hinner, hsome⟩, hmem⟩ houtside

end WholeBlocks

/-! ## Statements -/

/-- What a statement does to the open blocks. -/
theorem Effect.apply_captures {effect : Effect} {state next : BuildState} {location : Location}
    (h : effect.apply state location = .ok next) :
    (next.captures.map Capture.outline = state.captures.map Capture.outline) ∨
      (effect.closes = false ∧ ∃ capture : Capture, capture.location = location ∧
        next.captures = capture :: state.captures) ∨
      ∃ capture outer, state.captures = capture :: outer ∧
        (next.captures.map Capture.outline = outer.map Capture.outline ∨
          ∃ capture' : Capture, next.captures = capture' :: outer ∧
            capture'.location = capture.location) := by
  cases effect with
  | add operation =>
    cases h
    exact .inl (state.outline_append _)
  | call name operands =>
    cases h
    exact .inl (state.outline_append _)
  | declareGlobals operands => exact .inl (BuildState.outline_declareGlobals h)
  | beginMacro label variadic operands =>
    obtain ⟨found, parameters, -, -, -, -, rfl⟩ := BuildState.beginMacro_eq_ok.mp h
    exact .inr (.inl ⟨rfl, _, rfl, rfl⟩)
  | endMacro operands =>
    obtain ⟨-, name, body, opened, rest, hstack, rfl⟩ := BuildState.endMacro_eq_ok.mp h
    exact .inr (.inr ⟨_, _, hstack, .inl rfl⟩)
  | openConditional condition =>
    cases h
    exact .inr (.inl ⟨rfl, _, rfl, rfl⟩)
  | nextArm condition =>
    obtain ⟨arms, current, body, armLocation, opened, rest, hstack, rfl⟩ :=
      BuildState.nextArm_eq_ok.mp h
    exact .inr (.inr ⟨_, _, hstack, .inr ⟨_, rfl, rfl⟩⟩)
  | endConditional =>
    obtain ⟨arms, current, body, armLocation, opened, rest, hstack, rfl⟩ :=
      BuildState.endConditional_eq_ok.mp h
    exact .inr (.inr ⟨_, _, hstack, .inl (BuildState.outline_append _ _)⟩)
  | openLoop =>
    cases h
    exact .inr (.inl ⟨rfl, _, rfl, rfl⟩)
  | endLoop =>
    obtain ⟨body, opened, rest, hstack, rfl⟩ := BuildState.endLoop_eq_ok.mp h
    exact .inr (.inr ⟨_, _, hstack, .inl (BuildState.outline_append _ _)⟩)

theorem defineEquate_captures {state next : BuildState} {name : String} {value : Expr}
    (h : state.defineEquate name value = .ok next) : next.captures = state.captures := by
  obtain ⟨-, -, -, bound, number, -, -, rfl⟩ := BuildState.defineEquate_eq_ok.mp h
  rfl

/-- A task keeps the blocks whole, if it is deleted exactly when it stands in a body. -/
theorem WholeBlocks.advance {search : AssetSearch} {state next : BuildState} {task : BuildTask}
    {more : List BuildTask} (h : WholeBlocks gone arms state.captures)
    (htask : task.isSingle = true →
      (task.location.isDeleted gone = true ↔ InArms arms (task.around state.captures)))
    (hstep : task.advance search state = .ok (next, more)) :
    WholeBlocks gone arms next.captures := by
  cases task with
  | line line =>
    cases hbody : line.body with
    | equate name value =>
      obtain ⟨hdefined, -⟩ := (advance_equate hbody).mp hstep
      rwa [defineEquate_captures hdefined]
    | statements label statements =>
      rw [advance_statements hbody] at hstep
      cases hstep
      exact h.of_outline (state.outline_declare _ _ _)
  | statement label location statement =>
    cases hincludes : statement.includes with
    | true =>
      obtain ⟨lines, hopened, -⟩ := (advance_include hincludes).mp hstep
      obtain ⟨path, asset, text, read, -, -, -, -, -, rfl, -⟩ := openInclude_eq_ok.mp hopened
      exact h.of_outline (BuildState.outline_append _ _)
    | false =>
      obtain ⟨hbuilt, -⟩ := (advance_statement hincludes).mp hstep
      obtain ⟨effect, happly, hcloses, -⟩ := buildStatement_effect hincludes hbuilt
      rcases Effect.apply_captures happly with houtline | ⟨hopens, capture, hlocation, hnext⟩ |
          ⟨capture, outer, hstack, houtline | ⟨capture', hnext, hlocation⟩⟩
      · exact h.of_outline houtline
      · rw [hnext]
        refine ⟨?_, h⟩
        have haround : BuildTask.around (.statement label location statement) state.captures =
            state.captures := if_neg (by simp [BuildTask.closesBlock, ← hcloses, hopens])
        rw [hlocation, ← haround]
        exact htask rfl
      · rw [hstack] at h
        exact h.2.of_outline houtline
      · rw [hstack] at h
        rw [hnext]
        exact ⟨hlocation ▸ h.1, h.2⟩

/-! ## Programs -/

theorem DeletesBodies.wholeBlocks {search : AssetSearch} {state found : BuildState}
    {tasks left : List BuildTask} (h : DeletesBodies gone arms search state tasks)
    (hstate : WholeBlocks gone arms state.captures)
    (hfound : BuildsTo search state tasks found left) : WholeBlocks gone arms found.captures := by
  induction hfound with
  | here state tasks => exact hstate
  | step advanced _ ih =>
    refine ih (fun found task left hfound => h found task left (.step advanced hfound)) ?_
    exact hstate.advance (h _ _ _ (.here _ _)) advanced

/-- What is deleted stands in one of the arms. -/
theorem DeletesBodies.inArms {search : AssetSearch} {state found : BuildState} {task : BuildTask}
    {tasks left : List BuildTask} (h : DeletesBodies gone arms search state tasks)
    (hfound : BuildsTo search state tasks found (task :: left))
    (hdeleted : task.location.isDeleted gone = true) : InArms arms found.captures := by
  cases hsingle : task.isSingle with
  | true => exact BuildTask.inArms_of_around ((h found task left hfound hsingle).mp hdeleted)
  | false =>
    -- The first statement of a line stands where the line does.
    obtain ⟨label, first, others, location, rfl⟩ : ∃ label first others location,
        task = .line ⟨.statements label (first :: others), location⟩ := by
      unfold BuildTask.isSingle at hsingle
      split at hsingle
      case h_1 label first others location => exact ⟨label, first, others, location, rfl⟩
      case h_2 => cases hsingle
    have hfirst := hfound.trans (.step (advance_statements rfl) (.here _ _))
    have hin := BuildTask.inArms_of_around ((h _ _ _ hfirst rfl).mp hdeleted)
    exact hin.of_outline (found.outline_declare _ _ _).symm

/-- Deleting the bodies of dead arms deletes lines of dead arms, with whole blocks. -/
theorem DeletesBodies.deletesDead {search : AssetSearch} {state : BuildState}
    {tasks : List BuildTask} {dead : Location → Prop}
    (h : DeletesBodies gone arms search state tasks)
    (hstate : WholeBlocks gone arms state.captures) (hdead : ∀ arm, arms arm → dead arm)
    (hvalueless : ∀ found task left, BuildsTo search state tasks found (task :: left) →
      task.location.isDeleted gone = true → task.definesEquate = false) :
    DeletesDead gone dead search state tasks := by
  intro found task left hfound
  have hblocks := h.wholeBlocks hstate hfound
  refine ⟨fun hdeleted => hblocks.inDeadArm (h.inArms hfound hdeleted) hdead, ?_,
    hvalueless found task left hfound⟩
  intro hcloses capture hcapture
  obtain ⟨outer, hstack⟩ := List.head?_eq_some_iff.mp hcapture
  rw [hstack] at hblocks
  have hsingle : task.isSingle = true := by
    cases task with
    | line line => cases hcloses
    | statement label location statement => rfl
  have htask := h found task left hfound hsingle
  rw [BuildTask.around, if_pos hcloses, hstack, List.tail_cons] at htask
  exact Bool.eq_iff_iff.mpr (hblocks.1.trans htask.symm)

end Bodies

end Asm65816
