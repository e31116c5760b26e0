import Asm65816.Proofs.Length

/-!
# What flow statements do to the frames

Laying out a flow statement touches nothing but the frames: it opens a frame, or takes the
innermost open one and notes its own address there, or both. The moves listed here are all that
can happen, each under the conditions it needs.
-/

namespace Asm65816

namespace FlowState

/-- The frames with those of `others` open. -/
def withOpened (state : FlowState) (others : List Nat) : FlowState := ⟨state.frames, others⟩

/-- The innermost open frame and its number, and the numbers of the other open ones. -/
structure Innermost (state : FlowState) (number : Nat) (frame : FlowFrame) (others : List Nat) :
    Prop where
  opened : state.opened = number :: others
  found : state.frames[number]? = some frame

/-- Taking the innermost frame leaves the others open. -/
theorem pop?_eq_some {state rest : FlowState} {number : Nat} {frame : FlowFrame}
    (h : state.pop? = some (number, frame, rest)) :
    ∃ others, state.Innermost number frame others ∧ rest = state.withOpened others := by
  unfold pop? at h
  cases hopened : state.opened with
  | nil => simp only [hopened, reduceCtorEq] at h
  | cons first others =>
    simp only [hopened] at h
    cases hframe : state.frames[first]? with
    | none => simp only [hframe, reduceCtorEq] at h
    | some found =>
      simp only [hframe, Option.some.injEq, Prod.mk.injEq] at h
      obtain ⟨rfl, rfl, rfl⟩ := h
      exact ⟨others, ⟨hopened, hframe⟩, rfl⟩

end FlowState

/-- What a flow statement at `address` does to the frames: the step it becomes, the number of the
frame it belongs to, and the frames after it. -/
inductive FlowMove (location : Location) (address : Int) (state : FlowState) :
    FlowStep → Nat → FlowState → Prop where
  | ifStart (condition : Condition) :
      FlowMove location address state (.ifStart condition) state.frames.length
        (state.push ⟨.ifFrame condition none none, address, location⟩).2
  | elseStart {opener number : Nat} {frame : FlowFrame} {others : List Nat}
      {condition : Condition} {elseAt endAt : Option Int}
      (inner : state.Innermost opener frame others)
      (kind : frame.kind = .ifFrame condition elseAt endAt)
      (fresh : number = state.frames.length) :
      FlowMove location address state (.elseStart condition) number
        (((state.withOpened others).setKind opener
          (.ifFrame condition (some address) endAt)).push
            ⟨.elseFrame condition none, address, location⟩).2
  | ifEnd {opener : Nat} {frame : FlowFrame} {others : List Nat} {condition : Condition}
      {elseAt endAt : Option Int} (inner : state.Innermost opener frame others)
      (kind : frame.kind = .ifFrame condition elseAt endAt) :
      FlowMove location address state (.ifEnd condition) opener
        ((state.withOpened others).setKind opener (.ifFrame condition elseAt (some address)))
  | elseEnd {opener : Nat} {frame : FlowFrame} {others : List Nat} {condition : Condition}
      {endAt : Option Int} (inner : state.Innermost opener frame others)
      (kind : frame.kind = .elseFrame condition endAt) :
      FlowMove location address state (.ifEnd condition) opener
        ((state.withOpened others).setKind opener (.elseFrame condition (some address)))
  | loopStart :
      FlowMove location address state .loopStart state.frames.length
        (state.push ⟨.loopFrame, address, location⟩).2
  | loopUntil {opener : Nat} {frame : FlowFrame} {others : List Nat} (condition : Condition)
      (inner : state.Innermost opener frame others) (kind : frame.kind = .loopFrame) :
      FlowMove location address state (.loopUntil condition) opener (state.withOpened others)
  | loopForever {opener : Nat} {frame : FlowFrame} {others : List Nat} {long : Bool}
      (inner : state.Innermost opener frame others) (kind : frame.kind = .loopFrame)
      (reach : long = false ↔
        -128 ≤ frame.opened - (address + 2) ∧ frame.opened - (address + 2) ≤ 127) :
      FlowMove location address state (.loopForever long) opener (state.withOpened others)
  | whileStart (condition : Condition) :
      FlowMove location address state (.whileStart condition) state.frames.length
        (state.push ⟨.whileFrame condition none, address, location⟩).2
  | whileEnd {opener : Nat} {frame : FlowFrame} {others : List Nat} {condition : Condition}
      {endAt : Option Int} (inner : state.Innermost opener frame others)
      (kind : frame.kind = .whileFrame condition endAt) :
      FlowMove location address state (.whileEnd condition) opener
        ((state.withOpened others).setKind opener (.whileFrame condition (some address)))
  | switchStart (register : Register) :
      FlowMove location address state (.switchStart register) state.frames.length
        (state.push ⟨.switchFrame register none, address, location⟩).2
  | firstCase {opener : Nat} {frame : FlowFrame} {others : List Nat} {register : Register}
      {endAt : Option Int} (value : Expr) (wide : Bool)
      (inner : state.Innermost opener frame others)
      (kind : frame.kind = .switchFrame register endAt) :
      FlowMove location address state (.caseStart value false wide) state.frames.length
        ((state.withOpened others).push ⟨.caseFrame opener none, address, location⟩).2
  | nextCase {opener switch number : Nat} {frame : FlowFrame} {others : List Nat}
      {nextAt : Option Int} (value : Expr) (wide : Bool)
      (inner : state.Innermost opener frame others)
      (kind : frame.kind = .caseFrame switch nextAt) (fresh : number = state.frames.length) :
      FlowMove location address state (.caseStart value true wide) number
        (((state.withOpened others).setKind opener
          (.caseFrame switch (some (address + 2)))).push
            ⟨.caseFrame switch none, address, location⟩).2
  | emptySwitchEnd {opener : Nat} {frame : FlowFrame} {others : List Nat} {register : Register}
      {endAt : Option Int} (inner : state.Innermost opener frame others)
      (kind : frame.kind = .switchFrame register endAt) :
      FlowMove location address state (.switchEnd register) opener
        ((state.withOpened others).setKind opener (.switchFrame register (some address)))
  | switchEnd {opener switch : Nat} {frame : FlowFrame} {others : List Nat} {nextAt : Option Int}
      {register : Register} {endAt : Option Int} (inner : state.Innermost opener frame others)
      (kind : frame.kind = .caseFrame switch nextAt)
      (owner : ((state.withOpened others).setKind opener
        (.caseFrame switch (some address))).frames[switch]?.map FlowFrame.kind =
          some (.switchFrame register endAt)) :
      FlowMove location address state (.switchEnd register) switch
        (((state.withOpened others).setKind opener (.caseFrame switch (some address))).setKind
          switch (.switchFrame register (some address)))

/-- Taking the innermost flow structure of a layout. -/
theorem closeFlow_eq_ok {layout next : Layout} {keyword : String} {number : Nat}
    {frame : FlowFrame} (h : layout.closeFlow keyword = .ok (number, frame, next)) :
    ∃ others, layout.flow.Innermost number frame others ∧
      next = { layout with flow := layout.flow.withOpened others } := by
  unfold Layout.closeFlow at h
  cases hpop : layout.flow.pop? with
  | none => simp only [hpop, reduceCtorEq] at h
  | some taken =>
    obtain ⟨found, foundFrame, rest⟩ := taken
    obtain ⟨others, hinner, rfl⟩ := FlowState.pop?_eq_some hpop
    simp only [hpop, Except.ok.injEq, Prod.mk.injEq] at h
    obtain ⟨rfl, rfl, rfl⟩ := h
    exact ⟨others, hinner, rfl⟩

/-- The size of a case is the length of its comparison and its branch. -/
theorem caseSize_eq_ok {wide : Bool} {number : Number} {size : Nat}
    (h : caseSize wide number = .ok size) : size = (if wide then 3 else 2) + 2 := by
  unfold caseSize at h
  split at h
  case isTrue hwide =>
    obtain rfl := Except.ok.inj h
    rw [if_pos hwide.1]
  case isFalse hwide =>
    obtain ⟨hnarrow, h⟩ := demand_eq_ok.mp h
    obtain rfl := Except.ok.inj h
    rw [if_neg fun hw => hwide ⟨hw, by omega⟩]

/-- A case that has a size has a value that fits its register. -/
theorem width_of_caseSize {wide : Bool} {number : Number} {size : Nat}
    (h : caseSize wide number = .ok size) : number.width ≤ if wide then 2 else 1 := by
  unfold caseSize at h
  split at h
  case isTrue hwide =>
    rw [if_pos hwide.1]
    exact hwide.2
  case isFalse =>
    obtain ⟨hnarrow, -⟩ := demand_eq_ok.mp h
    split
    · omega
    · exact hnarrow

/-- Laying out a flow statement is one of the moves, takes as many bytes as its step has, and
changes nothing but the frames. -/
theorem placeFlow_move {environment : Environment} {calls : List MacroCall} {location : Location}
    {layout next : Layout} {statement : FlowStatement} {step : FlowStep} {number size : Nat}
    (h : placeFlow environment calls location layout statement = .ok (step, number, size, next)) :
    FlowMove location layout.address layout.flow step number next.flow ∧ size = step.length ∧
      next = { layout with flow := next.flow } := by
  unfold placeFlow at h
  obtain ⟨current, -, h⟩ := bind_eq_ok.mp h
  cases statement with
  | ifStart condition =>
    cases h
    exact ⟨.ifStart condition, rfl, rfl⟩
  | elseStart =>
    obtain ⟨⟨opener, frame, closed⟩, hclose, h⟩ := bind_eq_ok.mp h
    obtain ⟨others, hinner, rfl⟩ := closeFlow_eq_ok hclose
    dsimp only at h
    split at h
    case h_1 condition elseAt endAt hkind =>
      cases h
      exact ⟨.elseStart hinner hkind (List.length_modify _ _ _), rfl, rfl⟩
    case h_2 => cases h
  | ifEnd =>
    obtain ⟨⟨opener, frame, closed⟩, hclose, h⟩ := bind_eq_ok.mp h
    obtain ⟨others, hinner, rfl⟩ := closeFlow_eq_ok hclose
    dsimp only at h
    split at h
    case h_1 condition elseAt endAt hkind =>
      cases h
      exact ⟨.ifEnd hinner hkind, rfl, rfl⟩
    case h_2 condition endAt hkind =>
      cases h
      exact ⟨.elseEnd hinner hkind, rfl, rfl⟩
    case h_3 => cases h
  | loopStart =>
    cases h
    exact ⟨.loopStart, rfl, rfl⟩
  | loopUntil condition =>
    obtain ⟨⟨opener, frame, closed⟩, hclose, h⟩ := bind_eq_ok.mp h
    obtain ⟨others, hinner, rfl⟩ := closeFlow_eq_ok hclose
    dsimp only at h
    split at h
    case h_1 hkind =>
      cases h
      exact ⟨.loopUntil condition hinner hkind, rfl, rfl⟩
    case h_2 => cases h
  | loopForever =>
    obtain ⟨⟨opener, frame, closed⟩, hclose, h⟩ := bind_eq_ok.mp h
    obtain ⟨others, hinner, rfl⟩ := closeFlow_eq_ok hclose
    dsimp only at h
    split at h
    case h_1 hkind =>
      split at h
      case isTrue hshort =>
        cases h
        exact ⟨.loopForever hinner hkind (by simpa using hshort), rfl, rfl⟩
      case isFalse hshort =>
        obtain ⟨-, h⟩ := demand_eq_ok.mp h
        cases h
        exact ⟨.loopForever hinner hkind (by simpa using hshort), rfl, rfl⟩
    case h_2 => cases h
  | whileStart condition =>
    cases h
    exact ⟨.whileStart condition, rfl, rfl⟩
  | whileEnd =>
    obtain ⟨⟨opener, frame, closed⟩, hclose, h⟩ := bind_eq_ok.mp h
    obtain ⟨others, hinner, rfl⟩ := closeFlow_eq_ok hclose
    dsimp only at h
    split at h
    case h_1 condition endAt hkind =>
      cases h
      exact ⟨.whileEnd hinner hkind, rfl, rfl⟩
    case h_2 => cases h
  | switchStart register =>
    cases h
    exact ⟨.switchStart register, rfl, rfl⟩
  | caseStart operand =>
    obtain ⟨⟨opener, frame, closed⟩, hclose, h⟩ := bind_eq_ok.mp h
    obtain ⟨others, hinner, rfl⟩ := closeFlow_eq_ok hclose
    have howner : (layout.flow.withOpened others).frames[opener]?.map FlowFrame.kind =
        some frame.kind := by
      rw [FlowState.withOpened, hinner.found, Option.map_some]
    cases hkind : frame.kind with
    | caseFrame switch nextAt =>
      simp only [hkind] at h
      split at h
      case h_1 register endAt _ =>
        obtain ⟨⟨value, operandNumber⟩, -, h⟩ := bind_eq_ok.mp h
        obtain ⟨compare, hcompare, h⟩ := bind_eq_ok.mp h
        obtain rfl := caseSize_eq_ok hcompare
        cases h
        refine ⟨.nextCase value _ hinner hkind (List.length_modify _ _ _), ?_, rfl⟩
        simp only [FlowStep.length, if_true]
        omega
      case h_2 => cases h
    | switchFrame register endAt =>
      simp only [hkind] at h howner
      simp only [howner] at h
      obtain ⟨⟨value, operandNumber⟩, -, h⟩ := bind_eq_ok.mp h
      obtain ⟨compare, hcompare, h⟩ := bind_eq_ok.mp h
      obtain rfl := caseSize_eq_ok hcompare
      cases h
      refine ⟨.firstCase value _ hinner hkind, ?_, rfl⟩
      simp only [FlowStep.length, Bool.false_eq_true, if_false, Nat.zero_add, Nat.add_zero]
    | _ =>
      simp only [hkind] at h howner
      simp only [howner, reduceCtorEq] at h
  | switchEnd =>
    obtain ⟨⟨opener, frame, closed⟩, hclose, h⟩ := bind_eq_ok.mp h
    obtain ⟨others, hinner, rfl⟩ := closeFlow_eq_ok hclose
    have howner : (layout.flow.withOpened others).frames[opener]?.map FlowFrame.kind =
        some frame.kind := by
      rw [FlowState.withOpened, hinner.found, Option.map_some]
    cases hkind : frame.kind with
    | caseFrame switch nextAt =>
      simp only [hkind] at h
      split at h
      case h_1 register endAt howned =>
        cases h
        exact ⟨.switchEnd hinner hkind howned, rfl, rfl⟩
      case h_2 => cases h
    | switchFrame register endAt =>
      simp only [hkind] at h howner
      simp only [howner] at h
      cases h
      exact ⟨.emptySwitchEnd hinner hkind, rfl, rfl⟩
    | _ =>
      simp only [hkind] at h howner
      simp only [howner, reduceCtorEq] at h

/-- The value of a case is bound and evaluated when it is laid out. -/
theorem caseValue_eq_ok {environment : Environment} {calls : List MacroCall} {address : Int}
    {operand value : Expr} {number : Number}
    (h : caseValue environment calls address operand = .ok (value, number)) :
    ∃ argued, bindArguments calls operand = .ok argued ∧
      bindEquates environment.equates address none argued = .ok value ∧
      value.closedValue = .ok number := by
  simp only [caseValue, bind_eq_ok, mapError_eq_ok] at h
  obtain ⟨argued, hargued, bound, hbound, h⟩ := h
  split at h
  case h_1 found hfound =>
    cases h
    exact ⟨argued, hargued, hbound, hfound⟩
  case h_2 => cases h

/-- Whether a register is 16 bits wide. -/
def Register.isWide (widths : RegisterWidths) : Register → Bool
  | .a => widths.accumulator
  | .x | .y => widths.index

/-- The register that a case at this place is compared with: that of the switch around it. -/
def FlowState.switchRegister? (flow : FlowState) : Option Register := do
  let (opener, frame, _) ← flow.pop?
  let switch := match frame.kind with
    | .caseFrame switch _ => switch
    | _ => opener
  match flow.frames[switch]?.map FlowFrame.kind with
  | some (.switchFrame register _) => some register
  | _ => none

section SwitchRegister

variable {flow rest : FlowState} {opener switch : Nat} {frame : FlowFrame} {others : List Nat}
  {nextAt noted endAt : Option Int} {register : Register}

/-- A case behind another one is compared with the register of the same switch. -/
theorem FlowState.switchRegister?_of_case (hpop : flow.pop? = some (opener, frame, rest))
    (hkind : frame.kind = .caseFrame switch nextAt)
    (hswitch : ((flow.withOpened others).setKind opener
      (.caseFrame switch noted)).frames[switch]?.map FlowFrame.kind =
        some (.switchFrame register endAt)) :
    flow.switchRegister? = some register := by
  have hframe : flow.frames[switch]?.map FlowFrame.kind = some (.switchFrame register endAt) := by
    rw [FlowState.setKind, List.getElem?_modify] at hswitch
    split at hswitch
    case isTrue => simp at hswitch
    case isFalse => simpa [withOpened] using hswitch
  simp only [switchRegister?, hpop, Option.bind_eq_bind, Option.bind_some, hkind, hframe]

/-- The first case is compared with the register of the innermost switch. -/
theorem FlowState.switchRegister?_of_switch (hpop : flow.pop? = some (opener, frame, rest))
    (hswitch : flow.frames[opener]?.map FlowFrame.kind = some (.switchFrame register endAt)) :
    flow.switchRegister? = some register := by
  obtain ⟨others, ⟨-, hframe⟩, -⟩ := pop?_eq_some hpop
  have hkind : frame.kind = .switchFrame register endAt := by simpa [hframe] using hswitch
  simp only [switchRegister?, hpop, Option.bind_eq_bind, Option.bind_some, hkind, hframe,
    Option.map_some]

end SwitchRegister

/-- A case that is laid out has a value as wide as its register at most. -/
theorem placeFlow_caseStart {environment : Environment} {calls : List MacroCall}
    {location : Location} {layout next : Layout} {statement : FlowStatement} {value : Expr}
    {follows wide : Bool} {number size : Nat}
    (h : placeFlow environment calls location layout statement =
      .ok (.caseStart value follows wide, number, size, next)) :
    ∃ operand found register, statement = .caseStart operand ∧
      caseValue environment calls layout.address operand = .ok (value, found) ∧
      layout.flow.switchRegister? = some register ∧ wide = register.isWide layout.widths ∧
      found.width ≤ if wide then 2 else 1 := by
  unfold placeFlow at h
  obtain ⟨current, -, h⟩ := bind_eq_ok.mp h
  cases statement with
  | caseStart operand =>
    obtain ⟨⟨opener, frame, closed⟩, hclosed, h⟩ := bind_eq_ok.mp h
    unfold Layout.closeFlow at hclosed
    split at hclosed
    case h_2 => cases hclosed
    case h_1 opener frame rest hpop =>
      cases hclosed
      obtain ⟨others, -, rfl⟩ := FlowState.pop?_eq_some hpop
      dsimp only at h
      cases hkind : frame.kind
      all_goals
        simp only [hkind] at h
        split at h
        case h_2 => cases h
        case h_1 register endAt hregister =>
          obtain ⟨⟨bound, found⟩, hvalue, h⟩ := bind_eq_ok.mp h
          obtain ⟨compare, hcompare, h⟩ := bind_eq_ok.mp h
          have hwidth := width_of_caseSize hcompare
          cases h
          refine ⟨operand, found, register, rfl, hvalue, ?_, ?_, hwidth⟩
          · first
              | exact FlowState.switchRegister?_of_case hpop hkind hregister
              | exact FlowState.switchRegister?_of_switch hpop hregister
          · cases register <;> rfl
  | ifStart condition | loopStart | whileStart condition | switchStart register => cases h
  | elseStart | ifEnd | loopUntil condition | loopForever | whileEnd | switchEnd =>
    obtain ⟨⟨opener, frame, closed⟩, -, h⟩ := bind_eq_ok.mp h
    dsimp only at h
    repeat' split at h
    all_goals cases h

/-- A case is laid out as a case. -/
theorem placeFlow_of_caseStart {environment : Environment} {calls : List MacroCall}
    {location : Location} {layout next : Layout} {operand : Expr} {step : FlowStep}
    {number size : Nat}
    (h : placeFlow environment calls location layout (.caseStart operand) =
      .ok (step, number, size, next)) :
    ∃ value follows wide, step = .caseStart value follows wide := by
  obtain ⟨current, -, h⟩ := bind_eq_ok.mp h
  obtain ⟨⟨opener, frame, closed⟩, -, h⟩ := bind_eq_ok.mp h
  dsimp only at h
  split at h
  case h_2 => cases h
  case h_1 =>
    obtain ⟨⟨bound, found⟩, -, h⟩ := bind_eq_ok.mp h
    obtain ⟨compare, -, h⟩ := bind_eq_ok.mp h
    cases h
    exact ⟨_, _, _, rfl⟩

end Asm65816
