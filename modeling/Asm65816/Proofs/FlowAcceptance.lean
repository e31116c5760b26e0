import Asm65816.Proofs.FlowGrammar
import Asm65816.Proofs.FlowLowering
import Asm65816.Proofs.LabelLookup
import Asm65816.Proofs.WalkFaults

/-!
# Which flow statements are accepted

The flow statements that the first walk comes to are laid out exactly when they are well
bracketed. Along the walk the frames are those of a stack of open structures, and every frame that
has left the stack has its addresses. When the stack is empty in the end, every frame serves the
statements of its structure, so that the second walk has no fault of flow control.
-/

namespace Asm65816

/-! ## Addresses in frames -/

namespace FrameKind

/-- A kind without its addresses. -/
def skeleton : FrameKind → FrameKind
  | ifFrame condition _ _ => ifFrame condition none none
  | elseFrame condition _ => elseFrame condition none
  | loopFrame => loopFrame
  | whileFrame condition _ => whileFrame condition none
  | switchFrame register _ => switchFrame register none
  | caseFrame switch _ => caseFrame switch none

/-- Whether the addresses that the branches of a structure lead to are known. -/
def isNoted : FrameKind → Bool
  | ifFrame _ elseAt endAt => elseAt.isSome || endAt.isSome
  | elseFrame _ endAt | whileFrame _ endAt | switchFrame _ endAt => endAt.isSome
  | caseFrame _ nextAt => nextAt.isSome
  | loopFrame => true

end FrameKind

namespace FlowState

/-- Frames keep their kind, whatever addresses are noted in them. -/
def SameForms (state next : FlowState) : Prop :=
  ∀ number kind, state.kind? number = some kind →
    ∃ later, next.kind? number = some later ∧ later.skeleton = kind.skeleton

namespace SameForms

variable {first second third : FlowState}

theorem refl (state : FlowState) : SameForms state state := fun _ kind h => ⟨kind, h, rfl⟩

theorem trans (h : SameForms first second) (h' : SameForms second third) :
    SameForms first third := by
  intro number kind hkind
  obtain ⟨mid, hmid, hsame⟩ := h number kind hkind
  obtain ⟨later, hlater, hsame'⟩ := h' number mid hmid
  exact ⟨later, hlater, hsame'.trans hsame⟩

theorem withOpened (state : FlowState) (others : List Nat) :
    SameForms state (state.withOpened others) :=
  fun _ kind h => ⟨kind, h, rfl⟩

theorem push (state : FlowState) (frame : FlowFrame) : SameForms state (state.push frame).2 := by
  intro number kind hkind
  refine ⟨kind, ?_, rfl⟩
  rw [← hkind]
  exact (Keeps.push state frame []).kind (lt_of_kind? hkind) (by simp)

theorem setKind {state : FlowState} {changed : Nat} {old new : FrameKind}
    (hold : state.kind? changed = some old) (hsame : new.skeleton = old.skeleton) :
    SameForms state (state.setKind changed new) := by
  intro number kind hkind
  by_cases heq : changed = number
  · subst heq
    obtain rfl := Option.some.inj (hold.symm.trans hkind)
    exact ⟨new, kind?_setKind_self new (lt_of_kind? hkind), hsame⟩
  · refine ⟨kind, ?_, rfl⟩
    rw [← hkind]
    refine (Keeps.setKind state new (List.mem_singleton_self changed)).kind (lt_of_kind? hkind) ?_
    exact fun hmem => heq (List.mem_singleton.mp hmem).symm

/-- A loop has no addresses. -/
theorem loop (h : SameForms first second) {number : Nat}
    (hloop : first.kind? number = some .loopFrame) : second.kind? number = some .loopFrame := by
  obtain ⟨later, hlater, hsame⟩ := h number _ hloop
  cases later <;> cases hsame
  exact hlater

/-- A switch stays a switch. -/
theorem switch (h : SameForms first second) {number : Nat} {register : Register}
    {endAt : Option Int} (hswitch : first.kind? number = some (.switchFrame register endAt)) :
    ∃ endAt, second.kind? number = some (.switchFrame register endAt) := by
  obtain ⟨later, hlater, hsame⟩ := h number _ hswitch
  cases later <;> cases hsame
  exact ⟨_, hlater⟩

end SameForms

/-- The kind of a new frame under its number. -/
theorem kind?_push_at {state : FlowState} {frame : FlowFrame} {number : Nat}
    (h : number = state.frames.length) : (state.push frame).2.kind? number = some frame.kind := by
  rw [h, kind?_push_self]

/-- A frame that is not there before another one is opened is that frame. -/
theorem kind?_push_new {state : FlowState} {frame : FlowFrame} {number : Nat} {kind : FrameKind}
    (h : (state.push frame).2.kind? number = some kind) (hnew : state.frames.length ≤ number) :
    number = state.frames.length ∧ kind = frame.kind := by
  rw [kind?, frames_push] at h
  split at h
  case isTrue heq => exact ⟨heq, (Option.some.inj h).symm⟩
  case isFalse => simp [List.getElem?_eq_none hnew] at h

end FlowState

section Moves

variable {location : Location} {address : Int} {state next : FlowState} {step : FlowStep}
  {number : Nat}

/-- A flow statement notes addresses in frames and does not change them otherwise. -/
theorem FlowMove.sameForms (move : FlowMove location address state step number next) :
    state.SameForms next := by
  cases move with
  | ifStart | loopStart | whileStart | switchStart => exact .push _ _
  | loopUntil condition inner kind => exact .withOpened _ _
  | loopForever inner kind reach => exact .withOpened _ _
  | ifEnd inner kind | elseEnd inner kind | whileEnd inner kind | emptySwitchEnd inner kind =>
    exact (FlowState.SameForms.withOpened _ _).trans (.setKind inner.kind? (by rw [kind]; rfl))
  | elseStart inner kind fresh =>
    exact ((FlowState.SameForms.withOpened _ _).trans
      (.setKind inner.kind? (by rw [kind]; rfl))).trans (.push _ _)
  | nextCase value wide inner kind fresh =>
    exact ((FlowState.SameForms.withOpened _ _).trans
      (.setKind inner.kind? (by rw [kind]; rfl))).trans (.push _ _)
  | firstCase value wide inner kind =>
    exact (FlowState.SameForms.withOpened _ _).trans (.push _ _)
  | switchEnd inner kind owner =>
    exact ((FlowState.SameForms.withOpened _ _).trans
      (.setKind inner.kind? (by rw [kind]; rfl))).trans (.setKind owner rfl)

/-- A new frame is open, and a new case goes on with a switch or with a case before it. -/
theorem FlowMove.fresh {other : Nat} {kind : FrameKind}
    (move : FlowMove location address state step number next)
    (hkind : next.kind? other = some kind) (hnew : state.frames.length ≤ other) :
    other ∈ next.opened ∧ ∀ switch nextAt, kind = .caseFrame switch nextAt →
      (∃ register endAt, state.kind? switch = some (.switchFrame register endAt)) ∨
        ∃ before earlier, state.kind? before = some (.caseFrame switch earlier) := by
  have hlt := FlowState.lt_of_kind? hkind
  cases move with
  | ifStart | loopStart | whileStart | switchStart =>
    obtain ⟨rfl, rfl⟩ := FlowState.kind?_push_new hkind hnew
    exact ⟨List.mem_cons_self, fun _ _ hcase => by cases hcase⟩
  | elseStart inner kind fresh =>
    obtain ⟨rfl, rfl⟩ :=
      FlowState.kind?_push_new hkind (by simpa [FlowState.setKind, FlowState.withOpened] using hnew)
    exact ⟨List.mem_cons_self, fun _ _ hcase => by cases hcase⟩
  | firstCase value wide inner kind =>
    obtain ⟨rfl, rfl⟩ := FlowState.kind?_push_new hkind hnew
    refine ⟨List.mem_cons_self, fun switch nextAt hcase => .inl ?_⟩
    cases hcase
    exact ⟨_, _, inner.kind?.trans (congrArg some kind)⟩
  | nextCase value wide inner kind fresh =>
    obtain ⟨rfl, rfl⟩ :=
      FlowState.kind?_push_new hkind (by simpa [FlowState.setKind, FlowState.withOpened] using hnew)
    refine ⟨List.mem_cons_self, fun switch nextAt hcase => .inr ?_⟩
    cases hcase
    exact ⟨_, _, inner.kind?.trans (congrArg some kind)⟩
  | _ =>
    simp only [FlowState.setKind, FlowState.withOpened, List.length_modify] at hlt
    omega

/-- Whether the frames of a statement have this kind, for statements that ask. -/
def FlowStep.fits : FlowStep → FrameKind → Bool
  | ifStart _, .ifFrame _ _ _ | elseStart _, .elseFrame _ _ | whileStart _, .whileFrame _ _
  | caseStart _ _ _, .caseFrame _ _ => true
  | ifStart _, _ | elseStart _, _ | whileStart _, _ | caseStart _ _ _, _ => false
  | _, _ => true

/-- Addresses do not matter to which statements a frame fits. -/
theorem FlowStep.fits_congr {first second : FrameKind} (h : first.skeleton = second.skeleton) :
    step.fits first = step.fits second := by
  cases first <;> cases second <;> cases h <;> cases step <;> rfl

/-- The frame of a statement has the kind of the statement. -/
theorem FlowMove.fits (move : FlowMove location address state step number next) :
    ∃ kind, next.kind? number = some kind ∧ step.fits kind = true := by
  cases move with
  | ifStart | loopStart | whileStart | switchStart =>
    exact ⟨_, FlowState.kind?_push_self _ _, rfl⟩
  | firstCase value wide inner kind => exact ⟨_, FlowState.kind?_push_self _ _, rfl⟩
  | elseStart inner kind fresh | nextCase value wide inner kind fresh =>
    refine ⟨_, FlowState.kind?_push_at ?_, rfl⟩
    rw [fresh]
    exact (List.length_modify _ _ _).symm
  | loopUntil condition inner kind => exact ⟨_, inner.kind?, rfl⟩
  | loopForever inner kind reach => exact ⟨_, inner.kind?, rfl⟩
  | ifEnd inner kind | elseEnd inner kind | whileEnd inner kind | emptySwitchEnd inner kind =>
    exact ⟨_, FlowState.kind?_setKind_self _ (FlowState.lt_of_kind? inner.kind?), rfl⟩
  | switchEnd inner kind owner =>
    exact ⟨_, FlowState.kind?_setKind_self _ (FlowState.lt_of_kind? owner), rfl⟩

/-- A frame that leaves the stack has its addresses, or is that of a loop. -/
theorem Turn.noted {fresh : Nat} {stack after : List OpenPart} {settled : List (Nat × FrameKind)}
    (h : Turn address fresh stack step number after settled) {other : Nat}
    (hlive : other ∈ liveNumbers stack) (hgone : other ∉ liveNumbers after) :
    (∃ kind, (other, kind) ∈ settled ∧ kind.isNoted = true) ∨
      ∃ opened, OpenPart.loop other opened ∈ stack := by
  cases h <;>
    simp only [mem_liveNumbers_cons, OpenPart.live, List.mem_cons, List.not_mem_nil, or_false,
      not_or] at hlive hgone <;> grind [FrameKind.isNoted]

end Moves

/-! ## Progress of the open structures -/

/-- The frames are those of a stack of open structures; those out of the stack have their
addresses, and every case belongs to a switch. -/
structure Progress (state : FlowState) (stack : List OpenPart) : Prop where
  tracks : Tracks state stack
  noted : ∀ number kind, state.kind? number = some kind → number ∉ liveNumbers stack →
    kind.isNoted = true
  owned : ∀ number switch nextAt, state.kind? number = some (.caseFrame switch nextAt) →
    ∃ register endAt, state.kind? switch = some (.switchFrame register endAt)

/-- Every frame has the addresses that the branches of its structure lead to, and that of a case
belongs to a switch which ends somewhere. -/
structure FlowState.Complete (state : FlowState) : Prop where
  noted : ∀ number kind, state.kind? number = some kind → kind.isNoted = true
  owned : ∀ number switch nextAt, state.kind? number = some (.caseFrame switch nextAt) →
    ∃ register endAt, state.kind? switch = some (.switchFrame register (some endAt))

namespace Progress

variable {state next : FlowState} {stack : List OpenPart}

theorem empty : Progress FlowState.empty [] :=
  ⟨.empty, fun _ _ hkind => by simp [FlowState.kind?, FlowState.empty] at hkind,
    fun _ _ _ hkind => by simp [FlowState.kind?, FlowState.empty] at hkind⟩

/-- Without open structures all frames are complete. -/
theorem complete (h : Progress state []) : state.Complete := by
  refine ⟨fun number kind hkind => h.noted number kind hkind (by simp [liveNumbers]), ?_⟩
  intro number switch nextAt hcase
  obtain ⟨register, endAt, hswitch⟩ := h.owned number switch nextAt hcase
  have hend := h.noted switch _ hswitch (by simp [liveNumbers])
  obtain ⟨address, rfl⟩ := Option.isSome_iff_exists.mp hend
  exact ⟨register, address, hswitch⟩

/-- Open structures are those that the layout has an innermost frame of. -/
theorem innermost_eq_none (h : Progress state stack) : state.innermost? = none ↔ stack = [] := by
  cases stack with
  | nil => simp [FlowState.innermost?, h.tracks.opened]
  | cons part rest =>
    obtain ⟨frame, hframe, -⟩ :=
      Option.map_eq_some_iff.mp (h.tracks.holds part List.mem_cons_self).kind
    simp [FlowState.innermost?, h.tracks.opened, hframe]

/-- A flow statement goes on with the open structures. -/
theorem move {location : Location} {address : Int} {step : FlowStep} {number : Nat}
    (h : Progress state stack) (hmove : FlowMove location address state step number next) :
    ∃ after, Progress next after ∧
      step.statement.turn (stack.map OpenPart.bracket) = some (after.map OpenPart.bracket) := by
  obtain ⟨after, settled, hturn, hafter, hkeeps, hsettles⟩ := hmove.turns h.tracks
  refine ⟨after, ⟨hafter, fun other kind hkind hgone => ?_, fun other switch nextAt hcase => ?_⟩,
    hturn.brackets⟩
  · by_cases hnew : state.frames.length ≤ other
    · -- A new frame is open.
      have hopen := (hmove.fresh hkind hnew).1
      rw [hafter.opened] at hopen
      obtain ⟨part, hpart, rfl⟩ := List.mem_map.mp hopen
      exact absurd (List.mem_flatMap.mpr ⟨part, hpart, part.number_mem_live⟩) hgone
    · have hold : other < state.frames.length := Nat.lt_of_not_le hnew
      by_cases hlive : other ∈ liveNumbers stack
      · rcases hturn.noted hlive hgone with ⟨found, hfound, hnoted⟩ | ⟨opened, hloop⟩
        · obtain rfl := Option.some.inj ((hsettles.kind other found hfound).symm.trans hkind)
          exact hnoted
        · have hkept := hmove.sameForms.loop (h.tracks.holds _ hloop).kind
          obtain rfl := Option.some.inj (hkept.symm.trans hkind)
          rfl
      · rw [hkeeps.kind hold hlive] at hkind
        exact h.noted other kind hkind hlive
  · have howner : ∃ register endAt, state.kind? switch = some (.switchFrame register endAt) := by
      by_cases hnew : state.frames.length ≤ other
      · rcases (hmove.fresh hcase hnew).2 switch nextAt rfl with hswitch | ⟨before, earlier, hold⟩
        · exact hswitch
        · exact h.owned before switch earlier hold
      · obtain ⟨frame, hframe⟩ : ∃ frame, state.frames[other]? = some frame :=
          ⟨_, List.getElem?_eq_getElem (Nat.lt_of_not_le hnew)⟩
        have hkind : state.kind? other = some frame.kind := by
          rw [FlowState.kind?, hframe, Option.map_some]
        obtain ⟨later, hlater, hsame⟩ := hmove.sameForms other _ hkind
        obtain rfl := Option.some.inj (hcase.symm.trans hlater)
        cases hform : frame.kind <;> rw [hform] at hsame <;> cases hsame
        rw [hform] at hkind
        exact h.owned other switch _ hkind
    obtain ⟨register, endAt, hswitch⟩ := howner
    obtain ⟨endAt', hswitch'⟩ := hmove.sameForms.switch hswitch
    exact ⟨register, endAt', hswitch'⟩

end Progress

/-- Complete frames serve the statements that fit them. -/
theorem FlowState.Complete.served {flow : FlowState} (h : flow.Complete) {step : FlowStep}
    {number : Nat} {kind : FrameKind} (hkind : flow.kind? number = some kind)
    (hfits : step.fits kind = true) : step.Served flow kind := by
  have hnoted := h.noted number kind hkind
  cases step with
  | ifStart condition =>
    cases kind <;> cases hfits
    simpa [FrameKind.isNoted, FlowStep.Served] using hnoted
  | elseStart condition | whileStart condition =>
    cases kind <;> cases hfits
    exact hnoted
  | caseStart value follows wide =>
    cases kind <;> cases hfits
    exact ⟨hnoted, h.owned number _ _ hkind⟩
  | _ => exact trivial

/-! ## The flow statements of a walk -/

/-- The flow statement of a task, if it is one. -/
def Task.flow? : Task → Option FlowStatement
  | .action _ (.operation (.flow statement) _) => some statement
  | _ => none

/-- The flow statements that the first walk comes to, in order. Those behind a statement that is
refused for flow control may be any. -/
inductive FlowSequence (environment : Environment) :
    Layout → List Task → List FlowStatement → Prop where
  | done (layout : Layout) : FlowSequence environment layout [] []
  | other {layout next : Layout} {task : Task} {event : Event} {more tasks : List Task}
      {statements : List FlowStatement} (plain : task.flow? = none)
      (advanced : task.advance environment layout = .ok (event, next, more))
      (rest : FlowSequence environment next (more ++ tasks) statements) :
      FlowSequence environment layout (task :: tasks) statements
  | statement {layout next : Layout} {task : Task} {event : Event} {more tasks : List Task}
      {statement : FlowStatement} {statements : List FlowStatement}
      (flow : task.flow? = some statement)
      (advanced : task.advance environment layout = .ok (event, next, more))
      (rest : FlowSequence environment next (more ++ tasks) statements) :
      FlowSequence environment layout (task :: tasks) (statement :: statements)
  | refused {layout : Layout} {task : Task} {failure : Failure} {tasks : List Task}
      {statement : FlowStatement} (flow : task.flow? = some statement)
      (failed : task.advance environment layout = .error failure)
      (control : failure.fault.isFlowControl = true) (later : List FlowStatement) :
      FlowSequence environment layout (task :: tasks) (statement :: later)

/-- Only flow statements are laid out as flow statements. -/
theorem placeOperation_flow {environment : Environment} {calls : List MacroCall}
    {location : Location} {layout next : Layout} {operation : Operation} {step : FlowStep}
    {number size : Nat}
    (h : placeOperation environment calls location layout operation =
      .ok (.flow step number, size, next)) :
    ∃ statement, operation = .flow statement ∧
      placeFlow environment calls location layout statement = .ok (step, number, size, next) := by
  cases operation with
  | flow statement =>
    obtain ⟨⟨found, frame, count, moved⟩, hmoved, h⟩ := bind_eq_ok.mp h
    cases h
    exact ⟨statement, rfl, hmoved⟩
  | instruction mnemonic operands =>
    obtain ⟨-, h⟩ := refuse_eq_ok.mp h
    simp only [bind_eq_ok, pure_eq_ok, Prod.mk.injEq, reduceCtorEq, false_and, and_false,
      exists_false] at h
  | _ =>
    simp only [placeOperation, bind_eq_ok, pure_eq_ok, Prod.mk.injEq, reduceCtorEq, false_and,
      and_false, exists_false] at h

section Walks

variable {environment : Environment} {layout next last : Layout} {task : Task}

/-- A task that is no flow statement leaves the frames alone. -/
theorem Task.advance_plain {event : Event} {more : List Task}
    (h : task.advance environment layout = .ok (event, next, more)) (hplain : task.flow? = none) :
    next.flow = layout.flow := by
  cases task with
  | leave location =>
    cases h
    rfl
  | action calls action =>
    cases action with
    | operation operation location =>
      simp only [Task.advance, bind_eq_ok, pure_eq_ok, failingAt_eq_ok] at h
      obtain ⟨⟨placed, size, mid⟩, hplaced, reached, hreached, h⟩ := h
      cases h
      rw [Layout.occupy_flow hreached]
      refine Layout.moves_flow (placeOperation_moves hplaced).1 fun step number heq => ?_
      subst heq
      obtain ⟨statement, rfl, -⟩ := placeOperation_flow hplaced
      cases hplain
    | callMacro name operands location =>
      simp only [Task.advance, bind_eq_ok, pure_eq_ok] at h
      obtain ⟨_, -, h⟩ := h
      cases h
      rfl
    | conditional arms location =>
      simp only [Task.advance, bind_eq_ok, pure_eq_ok] at h
      obtain ⟨_, -, h⟩ := h
      cases h
      rfl
    | argumentLoop body location =>
      cases calls with
      | nil => cases h
      | cons call outer =>
        cases h
        rfl

/-- A flow statement that is laid out moves the frames. -/
theorem Task.advance_flow {event : Event} {more : List Task} {statement : FlowStatement}
    (h : task.advance environment layout = .ok (event, next, more))
    (hflow : task.flow? = some statement) :
    ∃ location step number, FlowMove location layout.address layout.flow step number next.flow ∧
      ∀ stack, statement.turn stack = step.statement.turn stack := by
  unfold Task.flow? at hflow
  split at hflow
  case h_2 => cases hflow
  case h_1 calls statement location =>
    cases hflow
    simp only [Task.advance, placeOperation, bind_eq_ok, pure_eq_ok, failingAt_eq_ok] at h
    obtain ⟨⟨placed, size, mid⟩, ⟨⟨step, number, count, moved⟩, hmoved, hplaced⟩, reached,
      hreached, h⟩ := h
    cases hplaced
    cases h
    rw [Layout.occupy_flow hreached]
    exact ⟨location, step, number, (placeFlow_move hmoved).1, placeFlow_statement hmoved⟩

/-- A flow statement that is refused has no turn among the open structures. -/
theorem Task.advance_refused {failure : Failure} {statement : FlowStatement}
    {stack : List OpenPart} (h : task.advance environment layout = .error failure)
    (hflow : task.flow? = some statement) (hcontrol : failure.fault.isFlowControl = true)
    (htracks : Tracks layout.flow stack) :
    statement.turn (stack.map OpenPart.bracket) = none := by
  unfold Task.flow? at hflow
  split at hflow
  case h_2 => cases hflow
  case h_1 calls statement location =>
    cases hflow
    rcases bind_eq_error.mp h with hplaced | ⟨⟨placed, size, mid⟩, -, hrest⟩
    · rcases bind_eq_error.mp (failingAt_eq_error.mp hplaced).1 with hrefused | ⟨_, -, hnever⟩
      · exact placeFlow_refused hrefused hcontrol htracks
      · cases hnever
    · rcases bind_eq_error.mp hrest with hoccupied | ⟨_, -, hnever⟩
      · have hfault := (failingAt_eq_error.mp hoccupied).1
        rw [Layout.occupy] at hfault
        split at hfault
        · cases hfault
        · rcases Layout.advance_eq_error hfault with heq | ⟨name, heq⟩ <;>
            rw [heq] at hcontrol <;> cases hcontrol
      · cases hnever

/-- The first walk notes addresses in frames and does not change them otherwise. -/
theorem FirstWalk.sameForms {tasks : List Task} {trace : List (Layout × Event)}
    (walk : FirstWalk environment layout tasks trace last) :
    layout.flow.SameForms last.flow := by
  induction walk with
  | done layout => exact .refl _
  | @step layout next last task more tasks event trace advanced rest ih =>
    refine FlowState.SameForms.trans ?_ ih
    cases hflow : task.flow? with
    | none =>
      rw [Task.advance_plain advanced hflow]
      exact .refl _
    | some statement =>
      obtain ⟨location, step, number, hmove, -⟩ := Task.advance_flow advanced hflow
      exact hmove.sameForms

/-- A walk either does all of its flow statements, which turn the brackets of the open structures,
or stops at one that has no turn. -/
theorem FlowSequence.outcome {tasks : List Task} {statements : List FlowStatement}
    {stack : List OpenPart} (h : FlowSequence environment layout tasks statements)
    (hprogress : Progress layout.flow stack) :
    (∃ trace last after, FirstWalk environment layout tasks trace last ∧
        Progress last.flow after ∧
        turnAll statements (stack.map OpenPart.bracket) = some (after.map OpenPart.bracket)) ∨
      ∃ failure, Stops environment layout tasks failure ∧ failure.fault.isFlowControl = true ∧
        turnAll statements (stack.map OpenPart.bracket) = none := by
  induction h generalizing stack with
  | done layout => exact .inl ⟨[], layout, stack, .done layout, hprogress, rfl⟩
  | other plain advanced rest ih =>
    rw [← Task.advance_plain advanced plain] at hprogress
    rcases ih hprogress with ⟨trace, last, after, walk, hafter, hturns⟩ | ⟨failure, hstops, hfails⟩
    · exact .inl ⟨_, last, after, .step advanced walk, hafter, hturns⟩
    · exact .inr ⟨failure, .after (.step advanced (.here _ _)) hstops, hfails⟩
  | statement flow advanced rest ih =>
    obtain ⟨location, step, number, hmove, hsame⟩ := Task.advance_flow advanced flow
    obtain ⟨middle, hmiddle, hturn⟩ := hprogress.move hmove
    rw [← hsame] at hturn
    rw [turnAll_cons hturn]
    rcases ih hmiddle with ⟨trace, last, after, walk, hafter, hturns⟩ | ⟨failure, hstops, hfails⟩
    · exact .inl ⟨_, last, after, .step advanced walk, hafter, hturns⟩
    · exact .inr ⟨failure, .after (.step advanced (.here _ _)) hstops, hfails⟩
  | refused flow failed control later =>
    refine .inr ⟨_, .here failed, control, ?_⟩
    rw [turnAll, List.foldlM_cons, Task.advance_refused failed flow control hprogress.tracks]
    rfl

end Walks

/-! ## Programs -/

section Programs

variable {environment : Environment} {actions : List Action}

/-- A walk that stops is the failure of its program. -/
theorem Stops.layoutProgram {failure : Failure}
    (h : Stops environment Layout.empty (bodyTasks [] actions) failure) :
    layoutProgram environment actions = .error failure := by
  cases hlayout : Asm65816.layoutProgram environment actions with
  | ok result =>
    obtain ⟨steps, last⟩ := result
    obtain ⟨-, trace, -, walk⟩ := layoutProgram_firstWalk hlayout
    exact absurd walk h.not_firstWalk
  | error found =>
    rcases layoutProgram_eq_error hlayout with hstops | ⟨trace, last, frame, walk, -, -⟩
    · rw [h.unique hstops]
    · exact absurd walk h.not_firstWalk

/-- A program whose walk leaves a flow structure open is not laid out. -/
theorem FirstWalk.layoutProgram_eq_error {trace : List (Layout × Event)} {last : Layout}
    {frame : FlowFrame}
    (walk : FirstWalk environment Layout.empty (bodyTasks [] actions) trace last)
    (hopen : last.flow.innermost? = some frame) :
    Asm65816.layoutProgram environment actions =
      .error ⟨.unterminatedFlow frame.keyword, frame.location⟩ := by
  cases hlayout : Asm65816.layoutProgram environment actions with
  | ok result =>
    obtain ⟨steps, found⟩ := result
    obtain ⟨hclosed, trace', -, again⟩ := layoutProgram_firstWalk hlayout
    obtain ⟨-, rfl⟩ := walk.unique again
    rw [hopen] at hclosed
    cases hclosed
  | error failure =>
    rcases Asm65816.layoutProgram_eq_error hlayout with
      hstops | ⟨trace', last', frame', again, hopen', rfl⟩
    · exact absurd walk hstops.not_firstWalk
    · obtain ⟨-, rfl⟩ := walk.unique again
      cases hopen.symm.trans hopen'
      rfl

/-- The second walk over complete frames has no fault of flow control. -/
theorem emitProgram_not_flowControl {steps : List Step} {layout : Layout}
    {labels : List Resolution} {failure : Failure}
    (hlayout : layoutProgram environment actions = .ok (steps, layout))
    (hcomplete : layout.flow.Complete)
    (h : emitProgram layout labels steps = .error failure) :
    failure.fault.isFlowControl = false := by
  rw [emitProgram_eq_emitEvents, emitEvents_eq_error] at h
  obtain ⟨before, placed, size, after, reached, hevents, hbefore, hfault⟩ := h
  obtain ⟨-, hreached⟩ := layoutProgram_reached hlayout hevents hbefore
  generalize failure.fault = fault at hfault
  rcases bind_eq_error.mp hfault with hemits | ⟨emitted, -, hplaced⟩
  · rcases emitOperation_faults labels reached.layout placed fault hemits with hencoding | hmisses
    · cases fault <;> first | rfl | cases hencoding
    · cases hmisses with
      | operand mem fails =>
        obtain ⟨cause, -, rfl⟩ := mapError_eq_error.mp fails
        cases cause <;> rfl
      | enter fails =>
        obtain rfl := Layout.enter_eq_error fails
        rfl
      | origin fails =>
        obtain rfl := Layout.requireSegment_eq_error fails
        rfl
      | caseValue reports fails =>
        subst reports
        rfl
      | @flow step number control unserved =>
        cases hreached with
        | @intro calls operation found mid next others tail walked laidOut occupied rest follows =>
          obtain ⟨statement, -, hflow⟩ := placeOperation_flow laidOut
          obtain ⟨kind, hkind, hfits⟩ := (placeFlow_move hflow).1.fits
          rw [← Layout.occupy_flow occupied] at hkind
          obtain ⟨later, hlater, hsame⟩ := rest.sameForms number kind hkind
          rw [← follows.flow] at hcomplete hlater
          have hserved := hcomplete.served hlater ((FlowStep.fits_congr hsame).trans hfits)
          obtain ⟨frame, hframe, rfl⟩ := Option.map_eq_some_iff.mp hlater
          exact absurd hserved (unserved frame hframe)
  · dsimp only at hplaced
    split at hplaced
    · cases hplaced
      rfl
    · rcases bind_eq_error.mp hplaced with hplace | ⟨_, -, hnever⟩
      · rcases Layout.place_eq_error hplace with rfl | ⟨name, rfl⟩ | ⟨name, address, rfl⟩ <;> rfl
      · cases hnever

/-- Flow statements are accepted exactly when they are well bracketed: for the flow statements that
the first walk through a program comes to, none of them is refused and none is left open if and
only if they are nested structures. The program is laid out then, every frame has the addresses
that its branches lead to, and the second walk has no fault of flow control. -/
theorem flow_accepted_iff_wellBracketed {statements : List FlowStatement}
    (h : FlowSequence environment Layout.empty (bodyTasks [] actions) statements) :
    ((∀ failure, layoutProgram environment actions = .error failure →
        failure.fault.isFlowControl = false) ↔ WellBracketed statements) ∧
      (WellBracketed statements → ∃ steps layout,
        layoutProgram environment actions = .ok (steps, layout) ∧ layout.flow.Complete ∧
        ∀ labels failure, emitProgram layout labels steps = .error failure →
          failure.fault.isFlowControl = false) := by
  rcases h.outcome .empty with ⟨trace, last, after, walk, hafter, hturns⟩ |
    ⟨failure, hstops, hcontrol, hturns⟩
  · by_cases hclosed : after = []
    · subst hclosed
      have hbracketed : WellBracketed statements := wellBracketed_iff_turnAll.mpr hturns
      obtain ⟨steps, hlayout, -⟩ := walk.layoutProgram (hafter.innermost_eq_none.mpr rfl)
      refine ⟨⟨fun _ => hbracketed, fun _ failure hfails => ?_⟩, fun _ => ?_⟩
      · rw [hlayout] at hfails
        cases hfails
      · refine ⟨steps, last, hlayout, hafter.complete, fun labels failure hfails => ?_⟩
        exact emitProgram_not_flowControl hlayout hafter.complete hfails
    · have hopen : last.flow.innermost? ≠ none := fun hnone =>
        hclosed (hafter.innermost_eq_none.mp hnone)
      obtain ⟨frame, hframe⟩ := Option.ne_none_iff_exists'.mp hopen
      have hnot : ¬WellBracketed statements := by
        intro hbracketed
        have hempty := (hbracketed.turnAll []).symm.trans hturns
        exact hclosed (by simpa using hempty)
      refine ⟨⟨fun hnone => ?_, fun hbracketed => absurd hbracketed hnot⟩,
        fun hbracketed => absurd hbracketed hnot⟩
      cases hnone _ (walk.layoutProgram_eq_error hframe)
  · have hnot : ¬WellBracketed statements := by
      intro hbracketed
      cases (hbracketed.turnAll []).symm.trans hturns
    refine ⟨⟨fun hnone => ?_, fun hbracketed => absurd hbracketed hnot⟩,
      fun hbracketed => absurd hbracketed hnot⟩
    rw [hnone failure hstops.layoutProgram] at hcontrol
    cases hcontrol

/-- An `IF` with an `ELSE` inside a segment is accepted. -/
theorem flow_accepted_iff_wellBracketed_else :
    ∃ steps layout, layoutProgram ⟨[], [], ⟨.ofTable [], []⟩⟩
        [.operation (.createSegment "code" 0 9 0) default,
          .operation (.changeSegment "code") default,
          .operation (.flow (.ifStart .zeroSet)) default, .operation (.flow .elseStart) default,
          .operation (.flow .ifEnd) default] = .ok (steps, layout) ∧
      layout.flow.Complete ∧
      ∀ labels failure, emitProgram layout labels steps = .error failure →
        failure.fault.isFlowControl = false := by
  have hbracketed : WellBracketed [.ifStart .zeroSet, .elseStart, .ifEnd] :=
    .ifElse .nil .nil .nil
  refine (flow_accepted_iff_wellBracketed ?_).2 hbracketed
  -- The segment is created and entered, and three flow statements follow.
  refine .other rfl rfl ?_
  refine .other rfl rfl ?_
  refine .statement rfl rfl ?_
  refine .statement rfl rfl ?_
  refine .statement rfl rfl ?_
  exact .done _

end Programs

end Asm65816
