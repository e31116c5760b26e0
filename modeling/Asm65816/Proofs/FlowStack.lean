import Asm65816.Proofs.FlowMove

/-!
# The open flow structures

While a program is laid out, the open frames are a stack of structures in progress. Every flow
statement turns the stack by one bracket: it pushes a structure, takes the innermost one, or goes
on with it in a new frame. The frames that a turn takes out of the stack are settled: nothing that
follows changes them, so that the second walk finds in them what the turn noted there.
-/

namespace Asm65816

namespace FlowState

/-- The kind of the frame of a number. -/
def kind? (state : FlowState) (number : Nat) : Option FrameKind :=
  state.frames[number]?.map FlowFrame.kind

/-- The address at which the frame of a number was opened. -/
def opened? (state : FlowState) (number : Nat) : Option Int :=
  state.frames[number]?.map FlowFrame.opened

/-- All frames of a state but those of the given numbers are in another one as well. -/
structure Keeps (state next : FlowState) (changed : List Nat) : Prop where
  length : state.frames.length ≤ next.frames.length
  frame : ∀ number, number < state.frames.length → number ∉ changed →
    next.frames[number]? = state.frames[number]?
  address : ∀ number, number < state.frames.length → next.opened? number = state.opened? number

/-- A number that has a kind is one of a frame. -/
theorem lt_of_kind? {state : FlowState} {number : Nat} {kind : FrameKind}
    (h : state.kind? number = some kind) : number < state.frames.length := by
  obtain ⟨frame, hframe, -⟩ := Option.map_eq_some_iff.mp h
  obtain ⟨hlength, -⟩ := List.getElem?_eq_some_iff.mp hframe
  exact hlength

/-- The innermost frame has its kind. -/
theorem Innermost.kind? {state : FlowState} {number : Nat} {frame : FlowFrame} {others : List Nat}
    (h : state.Innermost number frame others) : state.kind? number = some frame.kind := by
  rw [FlowState.kind?, h.found, Option.map_some]

/-- The frames after opening one. -/
theorem frames_push (state : FlowState) (frame : FlowFrame) (number : Nat) :
    (state.push frame).2.frames[number]? =
      if number = state.frames.length then some frame else state.frames[number]? := by
  change (state.frames ++ [frame])[number]? = _
  rw [List.getElem?_append]
  split
  case isTrue hlt => rw [if_neg (by omega)]
  case isFalse hge =>
    by_cases heq : number = state.frames.length
    · simp [heq]
    · rw [if_neg heq, List.getElem?_eq_none (by simp; omega), List.getElem?_eq_none (by omega)]

/-- The frames after giving one another kind. -/
theorem frames_setKind (state : FlowState) (changed : Nat) (kind : FrameKind) (number : Nat) :
    (state.setKind changed kind).frames[number]? =
      if changed = number then state.frames[number]?.map fun frame => { frame with kind := kind }
      else state.frames[number]? := by
  change (state.frames.modify changed _)[number]? = _
  rw [List.getElem?_modify]
  split
  · rfl
  · exact Option.map_id'

/-- The kind of a new frame. -/
theorem kind?_push_self (state : FlowState) (frame : FlowFrame) :
    (state.push frame).2.kind? state.frames.length = some frame.kind := by
  rw [kind?, frames_push, if_pos rfl, Option.map_some]

/-- The address of a new frame. -/
theorem opened?_push_self (state : FlowState) (frame : FlowFrame) :
    (state.push frame).2.opened? state.frames.length = some frame.opened := by
  rw [opened?, frames_push, if_pos rfl, Option.map_some]

/-- The kind that was given to a frame. -/
theorem kind?_setKind_self {state : FlowState} {number : Nat} (kind : FrameKind)
    (h : number < state.frames.length) : (state.setKind number kind).kind? number = some kind := by
  rw [kind?, frames_setKind, if_pos rfl, List.getElem?_eq_getElem h]
  rfl

namespace Keeps

/-- Whichever frames are open, they are the same. -/
theorem withOpened (state : FlowState) (others : List Nat) (changed : List Nat) :
    Keeps state (state.withOpened others) changed :=
  ⟨Nat.le_refl _, fun _ _ _ => rfl, fun _ _ => rfl⟩

/-- Opening a frame keeps the others. -/
theorem push (state : FlowState) (frame : FlowFrame) (changed : List Nat) :
    Keeps state (state.push frame).2 changed := by
  have hframes (number : Nat) (hnumber : number < state.frames.length) :
      (state.push frame).2.frames[number]? = state.frames[number]? := by
    rw [frames_push, if_neg (by omega)]
  refine ⟨?_, fun number hnumber _ => hframes number hnumber, fun number hnumber => ?_⟩
  · simp [FlowState.push]
  · rw [opened?, opened?, hframes number hnumber]

/-- Giving a frame another kind keeps the others, and all addresses. -/
theorem setKind (state : FlowState) {number : Nat} (kind : FrameKind) {changed : List Nat}
    (h : number ∈ changed) : Keeps state (state.setKind number kind) changed := by
  refine ⟨Nat.le_of_eq (List.length_modify _ _ _).symm, fun other _ hother => ?_, fun other _ => ?_⟩
  · rw [frames_setKind, if_neg fun heq : number = other => hother (heq ▸ h)]
  · rw [opened?, opened?, frames_setKind]
    split
    · rw [Option.map_map]
      rfl
    · rfl

/-- What is kept apart from fewer frames is kept apart from more. -/
theorem mono {state next : FlowState} {changed more : List Nat} (h : Keeps state next changed)
    (hmore : ∀ number ∈ changed, number ∈ more) : Keeps state next more :=
  ⟨h.length, fun number hnumber hnot => h.frame number hnumber fun hmem => hnot (hmore _ hmem),
    h.address⟩

/-- What is kept twice is kept. -/
theorem trans {first second third : FlowState} {changed : List Nat}
    (h : Keeps first second changed) (h' : Keeps second third changed) :
    Keeps first third changed := by
  refine ⟨Nat.le_trans h.length h'.length, fun number hnumber hchanged => ?_,
    fun number hnumber => ?_⟩
  · have hlater := h'.frame number (Nat.lt_of_lt_of_le hnumber h.length) hchanged
    exact hlater.trans (h.frame number hnumber hchanged)
  · have hlater := h'.address number (Nat.lt_of_lt_of_le hnumber h.length)
    exact hlater.trans (h.address number hnumber)

/-- The kind of a frame that is kept. -/
theorem kind {state next : FlowState} {changed : List Nat} (h : Keeps state next changed)
    {number : Nat} (hnumber : number < state.frames.length) (hchanged : number ∉ changed) :
    next.kind? number = state.kind? number := by
  rw [kind?, kind?, h.frame number hnumber hchanged]

/-- A frame stays where it was opened, whatever is noted in it. -/
theorem opened {state next : FlowState} {changed : List Nat} (h : Keeps state next changed)
    {number : Nat} {opened : Int} (hopened : state.opened? number = some opened) :
    ∃ frame, next.frames[number]? = some frame ∧ frame.opened = opened := by
  obtain ⟨frame, hframe, -⟩ := Option.map_eq_some_iff.mp hopened
  obtain ⟨hnumber, -⟩ := List.getElem?_eq_some_iff.mp hframe
  exact Option.map_eq_some_iff.mp ((h.address number hnumber).trans hopened)

end Keeps

end FlowState

/-! ## The stack -/

/-- A structure in progress, by the numbers of its frames. -/
inductive OpenPart where
  | ifPart (number : Nat) (condition : Condition)
  | elsePart (number : Nat) (condition : Condition)
  | loop (number : Nat) (opened : Int)
  | whileLoop (number : Nat) (condition : Condition) (opened : Int)
  /-- A switch before its first case. -/
  | switchHead (number : Nat) (register : Register)
  /-- A case of the switch whose frame has the first number. -/
  | casePart (switch number : Nat) (register : Register)

namespace OpenPart

/-- The number of the frame that is open. -/
def number : OpenPart → Nat
  | ifPart number _ | elsePart number _ | loop number _ | whileLoop number _ _
  | switchHead number _ | casePart _ number _ => number

/-- The numbers of the frames that can still change. -/
def live : OpenPart → List Nat
  | ifPart number _ | elsePart number _ | loop number _ | whileLoop number _ _
  | switchHead number _ => [number]
  | casePart switch number _ => [number, switch]

/-- What the frames of a structure in progress say. -/
def Holds (state : FlowState) : OpenPart → Prop
  | ifPart number condition => state.kind? number = some (.ifFrame condition none none)
  | elsePart number condition => state.kind? number = some (.elseFrame condition none)
  | loop number opened =>
    state.kind? number = some .loopFrame ∧ state.opened? number = some opened
  | whileLoop number condition opened =>
    state.kind? number = some (.whileFrame condition none) ∧ state.opened? number = some opened
  | switchHead number register => state.kind? number = some (.switchFrame register none)
  | casePart switch number register =>
    state.kind? number = some (.caseFrame switch none) ∧
      state.kind? switch = some (.switchFrame register none)

/-- The open frame of a structure is one of those that can change. -/
theorem number_mem_live (part : OpenPart) : part.number ∈ part.live := by
  cases part <;> simp [number, live]

/-- The kind of the frame that is open. -/
def kind : OpenPart → FrameKind
  | ifPart _ condition => .ifFrame condition none none
  | elsePart _ condition => .elseFrame condition none
  | loop _ _ => .loopFrame
  | whileLoop _ condition _ => .whileFrame condition none
  | switchHead _ register => .switchFrame register none
  | casePart switch _ _ => .caseFrame switch none

/-- The open frame of a structure in progress has its kind. -/
theorem Holds.kind {state : FlowState} {part : OpenPart} (h : part.Holds state) :
    state.kind? part.number = some part.kind := by
  cases part with
  | casePart switch number register => exact h.1
  | loop number opened | whileLoop number condition opened => exact h.1
  | ifPart number condition | elsePart number condition | switchHead number register => exact h

/-- The frames of a structure in progress exist. -/
theorem Holds.lt {state : FlowState} {part : OpenPart} (h : part.Holds state) {number : Nat}
    (hlive : number ∈ part.live) : number < state.frames.length := by
  cases part with
  | casePart switch number register =>
    rcases List.mem_cons.mp hlive with rfl | hswitch
    · exact FlowState.lt_of_kind? h.1
    · obtain rfl := List.mem_singleton.mp hswitch
      exact FlowState.lt_of_kind? h.2
  | loop number opened | whileLoop number condition opened =>
    obtain rfl := List.mem_singleton.mp hlive
    exact FlowState.lt_of_kind? h.1
  | ifPart number condition | elsePart number condition | switchHead number register =>
    obtain rfl := List.mem_singleton.mp hlive
    exact FlowState.lt_of_kind? h

/-- A structure in progress stays as it is when its frames do. -/
theorem Holds.keep {state next : FlowState} {part : OpenPart} {changed : List Nat}
    (h : part.Holds state) (hkeeps : state.Keeps next changed)
    (hlive : ∀ number ∈ part.live, number ∉ changed) : part.Holds next := by
  have hkind (number : Nat) (hnumber : number ∈ part.live) :
      next.kind? number = state.kind? number :=
    hkeeps.kind (h.lt hnumber) (hlive number hnumber)
  have haddress (number : Nat) (hnumber : number ∈ part.live) :
      next.opened? number = state.opened? number := hkeeps.address number (h.lt hnumber)
  cases part with
  | casePart switch number register =>
    exact ⟨(hkind number (by simp [live])).trans h.1, (hkind switch (by simp [live])).trans h.2⟩
  | loop number opened | whileLoop number condition opened =>
    have hmem := List.mem_singleton_self number
    exact ⟨(hkind number hmem).trans h.1, (haddress number hmem).trans h.2⟩
  | ifPart number condition | elsePart number condition | switchHead number register =>
    exact (hkind number (List.mem_singleton_self number)).trans h

end OpenPart

/-- The numbers of all frames that can still change. -/
def liveNumbers (stack : List OpenPart) : List Nat := stack.flatMap OpenPart.live

/-- The frames that can change are those of the innermost structure and those of the others. -/
theorem mem_liveNumbers_cons {part : OpenPart} {stack : List OpenPart} {number : Nat} :
    number ∈ liveNumbers (part :: stack) ↔ number ∈ part.live ∨ number ∈ liveNumbers stack := by
  rw [liveNumbers, List.flatMap_cons, List.mem_append, liveNumbers]

/-- What is kept apart from the innermost structure is kept apart from the whole stack. -/
theorem FlowState.Keeps.outward {state next : FlowState} {part : OpenPart}
    (h : state.Keeps next part.live) (stack : List OpenPart) :
    state.Keeps next (liveNumbers (part :: stack)) :=
  h.mono fun _ hlive => mem_liveNumbers_cons.mpr (.inl hlive)

/-- The frames are those of a stack of structures in progress, which share none. -/
structure Tracks (state : FlowState) (stack : List OpenPart) : Prop where
  opened : state.opened = stack.map OpenPart.number
  holds : ∀ part ∈ stack, part.Holds state
  distinct : (liveNumbers stack).Nodup

namespace Tracks

variable {state next : FlowState} {part : OpenPart} {stack rest : List OpenPart}

/-- Nothing is in progress without frames. -/
theorem empty : Tracks FlowState.empty [] := ⟨rfl, by simp, .nil⟩

/-- The frames that can change exist. -/
theorem lt (h : Tracks state stack) {number : Nat} (hlive : number ∈ liveNumbers stack) :
    number < state.frames.length := by
  obtain ⟨part, hpart, hnumber⟩ := List.mem_flatMap.mp hlive
  exact (h.holds part hpart).lt hnumber

/-- The frames of the innermost structure are no others. -/
theorem not_mem_rest (h : Tracks state (part :: rest)) {number : Nat} (hpart : number ∈ part.live) :
    number ∉ liveNumbers rest := by
  intro hrest
  have hdistinct := h.distinct
  rw [liveNumbers, List.flatMap_cons, List.nodup_append] at hdistinct
  exact hdistinct.2.2 number hpart number hrest rfl

/-- What is left when the innermost structure is done. -/
theorem pop (h : Tracks state (part :: rest)) (hkeeps : state.Keeps next part.live)
    (hopened : next.opened = rest.map OpenPart.number) : Tracks next rest := by
  refine ⟨hopened, fun other hother => ?_, ?_⟩
  · have hholds := h.holds other (List.mem_cons_of_mem _ hother)
    refine hholds.keep hkeeps fun number hnumber hlive => ?_
    exact h.not_mem_rest hlive (List.mem_flatMap.mpr ⟨other, hother, hnumber⟩)
  · have hdistinct := h.distinct
    rw [liveNumbers, List.flatMap_cons, List.nodup_append] at hdistinct
    exact hdistinct.2.1

/-- A new frame with a structure in progress, which may go on with frames outside of the stack. -/
theorem push (h : Tracks state stack) {frame : FlowFrame}
    (hnumber : part.number = state.frames.length)
    (hholds : part.Holds (state.push frame).2)
    (hlive : ∀ number ∈ part.live, number ∉ liveNumbers stack) (hnodup : part.live.Nodup) :
    Tracks (state.push frame).2 (part :: stack) := by
  refine ⟨?_, fun other hother => ?_, ?_⟩
  · rw [List.map_cons, hnumber, ← h.opened]
    rfl
  · rcases List.mem_cons.mp hother with rfl | hother
    · exact hholds
    · exact (h.holds other hother).keep (.push state frame []) fun _ _ hmem => by cases hmem
  · rw [liveNumbers, List.flatMap_cons, List.nodup_append]
    refine ⟨hnodup, h.distinct, fun first hfirst second hsecond heq => ?_⟩
    exact hlive first hfirst (heq ▸ hsecond)

/-- A new frame with a structure that begins. -/
theorem push_fresh (h : Tracks state stack) {frame : FlowFrame}
    (hlive : part.live = [state.frames.length]) (hholds : part.Holds (state.push frame).2) :
    Tracks (state.push frame).2 (part :: stack) := by
  have hnumber : part.number = state.frames.length := by
    have hmem := part.number_mem_live
    rw [hlive] at hmem
    exact List.mem_singleton.mp hmem
  refine h.push hnumber hholds (fun number hmem hstack => ?_) (by simp [hlive])
  rw [hlive, List.mem_singleton] at hmem
  have hlt := h.lt hstack
  omega

/-- Taking the innermost structure and noting something in its open frame. -/
theorem close (h : Tracks state (part :: rest)) (kind : FrameKind) {closed : FlowState}
    (hclosed : closed =
      (state.withOpened (rest.map OpenPart.number)).setKind part.number kind) :
    Tracks closed rest ∧ state.Keeps closed part.live ∧
      closed.kind? part.number = some kind ∧ closed.frames.length = state.frames.length := by
  subst hclosed
  have hlt := (h.holds part List.mem_cons_self).lt part.number_mem_live
  have hkeeps : state.Keeps
      ((state.withOpened (rest.map OpenPart.number)).setKind part.number kind) part.live :=
    (FlowState.Keeps.withOpened _ _ _).trans (.setKind _ kind part.number_mem_live)
  exact ⟨h.pop hkeeps rfl, hkeeps, FlowState.kind?_setKind_self kind hlt, List.length_modify _ _ _⟩

/-- The innermost frame is the open one of the innermost structure. -/
theorem innermost (h : Tracks state stack) {number : Nat} {frame : FlowFrame} {others : List Nat}
    (hinner : state.Innermost number frame others) :
    ∃ part rest, stack = part :: rest ∧ number = part.number ∧
      others = rest.map OpenPart.number ∧ frame.kind = part.kind ∧
      state.opened? number = some frame.opened := by
  have hopened := h.opened
  rw [hinner.opened] at hopened
  cases stack with
  | nil => cases hopened
  | cons part rest =>
    rw [List.map_cons, List.cons.injEq] at hopened
    refine ⟨part, rest, rfl, hopened.1, hopened.2, ?_, ?_⟩
    · have hkind := (h.holds part List.mem_cons_self).kind
      rw [← hopened.1, hinner.kind?, Option.some.injEq] at hkind
      exact hkind
    · rw [FlowState.opened?, hinner.found, Option.map_some]

end Tracks

/-! ## One statement -/

/-- What a flow statement at `address` does to the stack when the next new frame is `fresh`: the
step, the number of its frame, the stack after it, and the frames that are settled with what they
say. -/
inductive Turn (address : Int) (fresh : Nat) :
    List OpenPart → FlowStep → Nat → List OpenPart → List (Nat × FrameKind) → Prop where
  | ifStart (condition : Condition) (stack : List OpenPart) :
      Turn address fresh stack (.ifStart condition) fresh (.ifPart fresh condition :: stack) []
  | elseStart (number : Nat) (condition : Condition) (rest : List OpenPart) :
      Turn address fresh (.ifPart number condition :: rest) (.elseStart condition) fresh
        (.elsePart fresh condition :: rest) [(number, .ifFrame condition (some address) none)]
  | ifEnd (number : Nat) (condition : Condition) (rest : List OpenPart) :
      Turn address fresh (.ifPart number condition :: rest) (.ifEnd condition) number rest
        [(number, .ifFrame condition none (some address))]
  | elseEnd (number : Nat) (condition : Condition) (rest : List OpenPart) :
      Turn address fresh (.elsePart number condition :: rest) (.ifEnd condition) number rest
        [(number, .elseFrame condition (some address))]
  | loopStart (stack : List OpenPart) :
      Turn address fresh stack .loopStart fresh (.loop fresh address :: stack) []
  | loopUntil (number : Nat) (opened : Int) (condition : Condition) (rest : List OpenPart) :
      Turn address fresh (.loop number opened :: rest) (.loopUntil condition) number rest []
  | loopForever {long : Bool} {opened : Int} (number : Nat) (rest : List OpenPart)
      (reach : long = false ↔ -128 ≤ opened - (address + 2) ∧ opened - (address + 2) ≤ 127) :
      Turn address fresh (.loop number opened :: rest) (.loopForever long) number rest []
  | whileStart (condition : Condition) (stack : List OpenPart) :
      Turn address fresh stack (.whileStart condition) fresh
        (.whileLoop fresh condition address :: stack) []
  | whileEnd (number : Nat) (condition : Condition) (opened : Int) (rest : List OpenPart) :
      Turn address fresh (.whileLoop number condition opened :: rest) (.whileEnd condition) number
        rest [(number, .whileFrame condition (some address))]
  | switchStart (register : Register) (stack : List OpenPart) :
      Turn address fresh stack (.switchStart register) fresh (.switchHead fresh register :: stack)
        []
  | firstCase (number : Nat) (register : Register) (value : Expr) (wide : Bool)
      (rest : List OpenPart) :
      Turn address fresh (.switchHead number register :: rest) (.caseStart value false wide) fresh
        (.casePart number fresh register :: rest) []
  | nextCase (switch number : Nat) (register : Register) (value : Expr) (wide : Bool)
      (rest : List OpenPart) :
      Turn address fresh (.casePart switch number register :: rest) (.caseStart value true wide)
        fresh (.casePart switch fresh register :: rest)
        [(number, .caseFrame switch (some (address + 2)))]
  | emptySwitchEnd (number : Nat) (register : Register) (rest : List OpenPart) :
      Turn address fresh (.switchHead number register :: rest) (.switchEnd register) number rest
        [(number, .switchFrame register (some address))]
  | switchEnd (switch number : Nat) (register : Register) (rest : List OpenPart) :
      Turn address fresh (.casePart switch number register :: rest) (.switchEnd register) switch
        rest [(number, .caseFrame switch (some address)),
          (switch, .switchFrame register (some address))]

/-- The frames that can change after a statement could change before it or are new. -/
theorem Turn.live {address : Int} {fresh : Nat} {stack next : List OpenPart} {step : FlowStep}
    {number : Nat} {settled : List (Nat × FrameKind)}
    (h : Turn address fresh stack step number next settled) {other : Nat}
    (hother : other ∈ liveNumbers next) : other ∈ liveNumbers stack ∨ other = fresh := by
  cases h <;> grind [mem_liveNumbers_cons, OpenPart.live]

/-- The settled frames say what was noted there and are out of the stack. -/
structure Settles (state : FlowState) (stack : List OpenPart) (settled : List (Nat × FrameKind)) :
    Prop where
  kind : ∀ number kind, (number, kind) ∈ settled → state.kind? number = some kind
  gone : ∀ number kind, (number, kind) ∈ settled → number ∉ liveNumbers stack

namespace Settles

variable {state next : FlowState} {stack : List OpenPart}

/-- Without settled frames there is nothing to say. -/
theorem nil : Settles state stack [] := ⟨by simp, by simp⟩

/-- One settled frame after another. -/
theorem cons {number : Nat} {kind : FrameKind} {settled : List (Nat × FrameKind)}
    (hkind : state.kind? number = some kind) (hgone : number ∉ liveNumbers stack)
    (h : Settles state stack settled) : Settles state stack ((number, kind) :: settled) := by
  constructor
  · intro other found hmem
    rcases List.mem_cons.mp hmem with heq | hmem
    · obtain ⟨rfl, rfl⟩ := Prod.mk.inj heq
      exact hkind
    · exact h.kind other found hmem
  · intro other found hmem
    rcases List.mem_cons.mp hmem with heq | hmem
    · obtain ⟨rfl, rfl⟩ := Prod.mk.inj heq
      exact hgone
    · exact h.gone other found hmem

/-- A new frame leaves the settled ones alone. -/
theorem push {settled : List (Nat × FrameKind)} {part : OpenPart} (h : Settles state stack settled)
    (frame : FlowFrame)
    (hpart : ∀ number kind, (number, kind) ∈ settled → number ∉ part.live) :
    Settles (state.push frame).2 (part :: stack) settled := by
  constructor
  · intro number kind hmem
    have hkind := h.kind number kind hmem
    rw [← hkind]
    exact (FlowState.Keeps.push state frame []).kind (FlowState.lt_of_kind? hkind) (by simp)
  · intro number kind hmem hlive
    rcases mem_liveNumbers_cons.mp hlive with hfirst | hrest
    · exact hpart number kind hmem hfirst
    · exact h.gone number kind hmem hrest

end Settles

/-- A statement at `address` turns the stack, and the frames after it are those of the new stack
and of the settled structures. -/
def Turns (address : Int) (state next : FlowState) (stack : List OpenPart) (step : FlowStep)
    (number : Nat) : Prop :=
  ∃ after settled, Turn address state.frames.length stack step number after settled ∧
    Tracks next after ∧ state.Keeps next (liveNumbers stack) ∧ Settles next after settled

namespace Tracks

variable {address : Int} {state : FlowState} {part : OpenPart} {rest : List OpenPart}
  {step : FlowStep}

/-- A statement that takes the innermost structure and notes something in its open frame. -/
theorem close_turns {kind : FrameKind} (h : Tracks state (part :: rest))
    (hturn : Turn address state.frames.length (part :: rest) step part.number rest
      [(part.number, kind)]) :
    Turns address state
      ((state.withOpened (rest.map OpenPart.number)).setKind part.number kind) (part :: rest) step
      part.number := by
  obtain ⟨htracks, hkeeps, hnoted, -⟩ := h.close kind rfl
  exact ⟨rest, _, hturn, htracks, hkeeps.outward rest,
    .cons hnoted (h.not_mem_rest part.number_mem_live) .nil⟩

/-- A statement that takes the innermost structure and notes nothing. -/
theorem take_turns (h : Tracks state (part :: rest))
    (hturn : Turn address state.frames.length (part :: rest) step part.number rest []) :
    Turns address state (state.withOpened (rest.map OpenPart.number)) (part :: rest) step
      part.number :=
  ⟨rest, [], hturn, h.pop (.withOpened _ _ _) rfl, .withOpened _ _ _, .nil⟩

/-- A statement that begins a structure. -/
theorem push_turns {stack : List OpenPart} {frame : FlowFrame} (h : Tracks state stack)
    (hturn : Turn address state.frames.length stack step state.frames.length (part :: stack) [])
    (hlive : part.live = [state.frames.length]) (hholds : part.Holds (state.push frame).2) :
    Turns address state (state.push frame).2 stack step state.frames.length :=
  ⟨_, _, hturn, h.push_fresh hlive hholds, .push _ _ _, .nil⟩

/-- `ELSE` goes on with the structure of its `IF` in a new frame. -/
theorem else_turns {number : Nat} {condition : Condition} {location : Location}
    (h : Tracks state (.ifPart number condition :: rest)) :
    Turns address state
      (((state.withOpened (rest.map OpenPart.number)).setKind number
        (.ifFrame condition (some address) none)).push
          ⟨.elseFrame condition none, address, location⟩).2
      (.ifPart number condition :: rest) (.elseStart condition) state.frames.length := by
  have hlt : number < state.frames.length := h.lt (by simp [liveNumbers, OpenPart.live])
  obtain ⟨htracks, hkeeps, hnoted, hlength⟩ := h.close (.ifFrame condition (some address) none) rfl
  refine ⟨.elsePart state.frames.length condition :: rest, _, .elseStart _ _ _, ?_, ?_, ?_⟩
  · refine htracks.push_fresh (by rw [hlength]; rfl) ?_
    rw [← hlength]
    exact FlowState.kind?_push_self _ _
  · exact (hkeeps.outward rest).trans (.push _ _ _)
  · refine .push (.cons hnoted (h.not_mem_rest (OpenPart.number_mem_live _)) .nil) _ ?_
    intro other kind hmem
    obtain ⟨rfl, -⟩ := Prod.mk.inj (List.mem_singleton.mp hmem)
    exact fun hlive => Nat.ne_of_lt hlt (List.mem_singleton.mp hlive)

/-- The first `CASE` goes on with its switch in a new frame. -/
theorem firstCase_turns {number : Nat} {register : Register} {location : Location} {value : Expr}
    {wide : Bool} (h : Tracks state (.switchHead number register :: rest)) :
    Turns address state
      ((state.withOpened (rest.map OpenPart.number)).push
        ⟨.caseFrame number none, address, location⟩).2
      (.switchHead number register :: rest) (.caseStart value false wide) state.frames.length := by
  have hswitch := h.holds _ List.mem_cons_self
  have hlt : number < state.frames.length := FlowState.lt_of_kind? hswitch
  have htracks : Tracks (state.withOpened (rest.map OpenPart.number)) rest :=
    h.pop (.withOpened _ _ _) rfl
  refine ⟨_, _, .firstCase number register value wide rest, htracks.push rfl ⟨?_, ?_⟩ ?_ ?_,
    (FlowState.Keeps.withOpened _ _ _).trans (.push _ _ _), .nil⟩
  · exact FlowState.kind?_push_self _ _
  · rw [← hswitch]
    exact (FlowState.Keeps.push _ _ []).kind hlt (by simp)
  · intro other hlive hrest
    rcases List.mem_cons.mp hlive with rfl | hlive
    · exact Nat.lt_irrefl _ (htracks.lt hrest)
    · obtain rfl := List.mem_singleton.mp hlive
      exact h.not_mem_rest (OpenPart.number_mem_live _) hrest
  · have hne : state.frames.length ≠ number := Nat.ne_of_gt hlt
    simpa [OpenPart.live] using hne

/-- The frame of a case is not that of its switch. -/
theorem case_ne_switch {switch number : Nat} {register : Register}
    (h : Tracks state (.casePart switch number register :: rest)) : number ≠ switch := by
  have hdistinct := h.distinct
  simp only [liveNumbers, List.flatMap_cons, OpenPart.live, List.cons_append, List.nodup_cons,
    List.mem_cons, not_or] at hdistinct
  exact hdistinct.1.1

/-- Noting something in the frame of a case leaves the frame of its switch alone. -/
theorem kind?_switch {switch number : Nat} {register : Register}
    (h : Tracks state (.casePart switch number register :: rest)) (kind : FrameKind) :
    ((state.withOpened (rest.map OpenPart.number)).setKind number kind).kind? switch =
      some (.switchFrame register none) := by
  obtain ⟨-, hswitch⟩ := h.holds _ List.mem_cons_self
  have hkept := FlowState.Keeps.setKind (state.withOpened (rest.map OpenPart.number)) kind
    (List.mem_singleton_self number)
  refine (hkept.kind (FlowState.lt_of_kind? hswitch) fun hmem => ?_).trans hswitch
  exact h.case_ne_switch (List.mem_singleton.mp hmem).symm

/-- A later `CASE` goes on with its switch in a new frame and settles the case before it. -/
theorem nextCase_turns {switch number : Nat} {register : Register} {location : Location}
    {value : Expr} {wide : Bool} (h : Tracks state (.casePart switch number register :: rest)) :
    Turns address state
      (((state.withOpened (rest.map OpenPart.number)).setKind number
        (.caseFrame switch (some (address + 2)))).push
          ⟨.caseFrame switch none, address, location⟩).2
      (.casePart switch number register :: rest) (.caseStart value true wide)
      state.frames.length := by
  obtain ⟨-, hswitch⟩ := h.holds _ List.mem_cons_self
  have hlt : number < state.frames.length := h.lt (by simp [liveNumbers, OpenPart.live])
  have hlt' : switch < state.frames.length := FlowState.lt_of_kind? hswitch
  have hgone : switch ∉ liveNumbers rest := h.not_mem_rest (by simp [OpenPart.live])
  obtain ⟨htracks, hkeeps, hnoted, hlength⟩ :=
    h.close (.caseFrame switch (some (address + 2))) rfl
  refine ⟨.casePart switch state.frames.length register :: rest, _, .nextCase _ _ _ _ _ _,
    htracks.push hlength.symm ⟨?_, ?_⟩ ?_ ?_, ?_, ?_⟩
  · rw [← hlength]
    exact FlowState.kind?_push_self _ _
  · have hkind := h.kind?_switch (.caseFrame switch (some (address + 2)))
    exact ((FlowState.Keeps.push _ _ []).kind (FlowState.lt_of_kind? hkind) (by simp)).trans hkind
  · intro other hlive hrest
    rcases List.mem_cons.mp hlive with rfl | hlive
    · exact Nat.lt_irrefl _ (hlength ▸ htracks.lt hrest)
    · obtain rfl := List.mem_singleton.mp hlive
      exact hgone hrest
  · have hne : state.frames.length ≠ switch := Nat.ne_of_gt hlt'
    simpa [OpenPart.live] using hne
  · exact (hkeeps.outward rest).trans (.push _ _ _)
  · refine .push (.cons hnoted (h.not_mem_rest (OpenPart.number_mem_live _)) .nil) _ ?_
    intro other kind hmem hlive
    obtain ⟨rfl, -⟩ := Prod.mk.inj (List.mem_singleton.mp hmem)
    rcases List.mem_cons.mp hlive with heq | hlive
    · exact Nat.ne_of_lt hlt heq
    · exact h.case_ne_switch (List.mem_singleton.mp hlive)

/-- `ENDSWITCH` settles the last case and the switch. -/
theorem switchEnd_turns {switch number : Nat} {register : Register}
    (h : Tracks state (.casePart switch number register :: rest)) :
    Turns address state
      (((state.withOpened (rest.map OpenPart.number)).setKind number
        (.caseFrame switch (some address))).setKind switch
          (.switchFrame register (some address)))
      (.casePart switch number register :: rest) (.switchEnd register) switch := by
  obtain ⟨-, hswitch⟩ := h.holds _ List.mem_cons_self
  have hlt' : switch < state.frames.length := FlowState.lt_of_kind? hswitch
  have hgone : switch ∉ liveNumbers rest := h.not_mem_rest (by simp [OpenPart.live])
  obtain ⟨-, hkeeps, hnoted, hlength⟩ := h.close (.caseFrame switch (some address)) rfl
  have hboth := hkeeps.trans (.setKind _ (.switchFrame register (some address))
    (by simp [OpenPart.live] : switch ∈ (OpenPart.casePart switch number register).live))
  refine ⟨rest, _, .switchEnd _ _ _ _, h.pop hboth rfl, hboth.outward rest,
    .cons ?_ (h.not_mem_rest (OpenPart.number_mem_live _)) (.cons ?_ hgone .nil)⟩
  · rw [← hnoted]
    exact (FlowState.Keeps.setKind _ _ (List.mem_singleton_self switch)).kind
      (FlowState.lt_of_kind? hnoted) fun hmem => h.case_ne_switch (List.mem_singleton.mp hmem)
  · exact FlowState.kind?_setKind_self _ (hlength ▸ hlt')

end Tracks

/-- Whatever a flow statement does to the frames, it turns the stack. -/
theorem FlowMove.turns {location : Location} {address : Int} {state next : FlowState}
    {step : FlowStep} {number : Nat} {stack : List OpenPart}
    (move : FlowMove location address state step number next) (h : Tracks state stack) :
    Turns address state next stack step number := by
  cases move with
  | ifStart condition =>
    exact h.push_turns (.ifStart condition stack) rfl (FlowState.kind?_push_self _ _)
  | loopStart =>
    exact h.push_turns (.loopStart stack) rfl
      ⟨FlowState.kind?_push_self _ _, FlowState.opened?_push_self _ _⟩
  | whileStart condition =>
    exact h.push_turns (.whileStart condition stack) rfl
      ⟨FlowState.kind?_push_self _ _, FlowState.opened?_push_self _ _⟩
  | switchStart register =>
    exact h.push_turns (.switchStart register stack) rfl (FlowState.kind?_push_self _ _)
  | ifEnd inner kind =>
    obtain ⟨part, rest, rfl, rfl, rfl, hpart, -⟩ := h.innermost inner
    rw [kind] at hpart
    cases part with
    | ifPart number condition =>
      cases hpart
      exact h.close_turns (.ifEnd _ _ _)
    | _ => cases hpart
  | elseEnd inner kind =>
    obtain ⟨part, rest, rfl, rfl, rfl, hpart, -⟩ := h.innermost inner
    rw [kind] at hpart
    cases part with
    | elsePart number condition =>
      cases hpart
      exact h.close_turns (.elseEnd _ _ _)
    | _ => cases hpart
  | whileEnd inner kind =>
    obtain ⟨part, rest, rfl, rfl, rfl, hpart, -⟩ := h.innermost inner
    rw [kind] at hpart
    cases part with
    | whileLoop number condition opened =>
      cases hpart
      exact h.close_turns (.whileEnd _ _ _ _)
    | _ => cases hpart
  | emptySwitchEnd inner kind =>
    obtain ⟨part, rest, rfl, rfl, rfl, hpart, -⟩ := h.innermost inner
    rw [kind] at hpart
    cases part with
    | switchHead number register =>
      cases hpart
      exact h.close_turns (.emptySwitchEnd _ _ _)
    | _ => cases hpart
  | loopUntil condition inner kind =>
    obtain ⟨part, rest, rfl, rfl, rfl, hpart, -⟩ := h.innermost inner
    rw [kind] at hpart
    cases part with
    | loop number opened => exact h.take_turns (.loopUntil _ _ _ _)
    | _ => cases hpart
  | loopForever inner kind reach =>
    obtain ⟨part, rest, rfl, rfl, rfl, hpart, hopened⟩ := h.innermost inner
    rw [kind] at hpart
    cases part with
    | loop number opened =>
      obtain ⟨-, hheld⟩ := h.holds _ List.mem_cons_self
      obtain rfl : opened = _ := Option.some.inj (hheld.symm.trans hopened)
      exact h.take_turns (.loopForever _ _ reach)
    | _ => cases hpart
  | elseStart inner kind fresh =>
    subst fresh
    obtain ⟨part, rest, rfl, rfl, rfl, hpart, -⟩ := h.innermost inner
    rw [kind] at hpart
    cases part with
    | ifPart number condition =>
      cases hpart
      exact h.else_turns
    | _ => cases hpart
  | firstCase value wide inner kind =>
    obtain ⟨part, rest, rfl, rfl, rfl, hpart, -⟩ := h.innermost inner
    rw [kind] at hpart
    cases part with
    | switchHead number register =>
      cases hpart
      exact h.firstCase_turns
    | _ => cases hpart
  | nextCase value wide inner kind fresh =>
    subst fresh
    obtain ⟨part, rest, rfl, rfl, rfl, hpart, -⟩ := h.innermost inner
    rw [kind] at hpart
    cases part with
    | casePart switch number register =>
      cases hpart
      exact h.nextCase_turns
    | _ => cases hpart
  | switchEnd inner kind owner =>
    obtain ⟨part, rest, rfl, rfl, rfl, hpart, -⟩ := h.innermost inner
    rw [kind] at hpart
    cases part with
    | casePart switch number register =>
      cases hpart
      have hkind := owner.symm.trans (h.kind?_switch _)
      cases hkind
      exact h.switchEnd_turns
    | _ => cases hpart

end Asm65816
