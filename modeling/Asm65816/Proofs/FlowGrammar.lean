import Asm65816.Proofs.EmissionFaults
import Asm65816.Proofs.FlowStack

/-!
# The grammar of flow statements

Flow statements are well bracketed when they are nested structures. A stack of brackets decides
this from left to right: a statement opens a bracket, goes on with the innermost one, or takes it
away. The open frames of a layout are such a stack, and laying out a flow statement is refused
exactly where the stack has no turn for it.
-/

namespace Asm65816

mutual

/-- Flow statements that are nested structures. -/
inductive WellBracketed : List FlowStatement → Prop where
  | nil : WellBracketed []
  | ifThen {condition : Condition} {body rest : List FlowStatement} (inner : WellBracketed body)
      (after : WellBracketed rest) :
      WellBracketed (.ifStart condition :: (body ++ .ifEnd :: rest))
  | ifElse {condition : Condition} {body otherwise rest : List FlowStatement}
      (inner : WellBracketed body) (innerElse : WellBracketed otherwise)
      (after : WellBracketed rest) :
      WellBracketed (.ifStart condition :: (body ++ .elseStart :: (otherwise ++ .ifEnd :: rest)))
  | loopUntil {condition : Condition} {body rest : List FlowStatement}
      (inner : WellBracketed body) (after : WellBracketed rest) :
      WellBracketed (.loopStart :: (body ++ .loopUntil condition :: rest))
  | loopForever {body rest : List FlowStatement} (inner : WellBracketed body)
      (after : WellBracketed rest) : WellBracketed (.loopStart :: (body ++ .loopForever :: rest))
  | whileLoop {condition : Condition} {body rest : List FlowStatement}
      (inner : WellBracketed body) (after : WellBracketed rest) :
      WellBracketed (.whileStart condition :: (body ++ .whileEnd :: rest))
  | switch {register : Register} {lead cases rest : List FlowStatement}
      (inner : WellBracketed lead) (arms : CaseBodies cases) (after : WellBracketed rest) :
      WellBracketed (.switchStart register :: (lead ++ (cases ++ .switchEnd :: rest)))

/-- Any number of cases with their bodies. -/
inductive CaseBodies : List FlowStatement → Prop where
  | nil : CaseBodies []
  | cons {value : Expr} {body others : List FlowStatement} (inner : WellBracketed body)
      (after : CaseBodies others) : CaseBodies (.caseStart value :: (body ++ others))

end

/-! ## The stack of brackets -/

/-- A structure in progress. A switch is the same before its first case and inside of any. -/
inductive Bracket where
  | ifPart
  | elsePart
  | loop
  | whileLoop
  | switch
  deriving DecidableEq, Repr

/-- What a statement does to the brackets around it, innermost first, if it can stand there. -/
def FlowStatement.turn : FlowStatement → List Bracket → Option (List Bracket)
  | .ifStart _, stack => some (.ifPart :: stack)
  | .elseStart, .ifPart :: stack => some (.elsePart :: stack)
  | .ifEnd, .ifPart :: stack | .ifEnd, .elsePart :: stack => some stack
  | .loopStart, stack => some (.loop :: stack)
  | .loopUntil _, .loop :: stack | .loopForever, .loop :: stack => some stack
  | .whileStart _, stack => some (.whileLoop :: stack)
  | .whileEnd, .whileLoop :: stack => some stack
  | .switchStart _, stack => some (.switch :: stack)
  | .caseStart _, .switch :: stack => some (.switch :: stack)
  | .switchEnd, .switch :: stack => some stack
  | _, _ => none

/-- The brackets after some statements, if each of them can stand where it does. -/
def turnAll (statements : List FlowStatement) (stack : List Bracket) : Option (List Bracket) :=
  statements.foldlM (fun stack statement => statement.turn stack) stack

theorem turnAll_cons {statement : FlowStatement} {rest : List FlowStatement}
    {stack next : List Bracket} (h : statement.turn stack = some next) :
    turnAll (statement :: rest) stack = turnAll rest next := by
  rw [turnAll, List.foldlM_cons, h]
  rfl

theorem turnAll_append {first second : List FlowStatement} {stack next : List Bracket}
    (h : turnAll first stack = some next) :
    turnAll (first ++ second) stack = turnAll second next := by
  rw [turnAll, List.foldlM_append]
  exact congrArg (· >>= _) h

mutual

/-- Nested structures leave the brackets around them as they are. -/
theorem WellBracketed.turnAll {statements : List FlowStatement} (stack : List Bracket) :
    WellBracketed statements → turnAll statements stack = some stack
  | .nil => rfl
  | .ifThen inner after => by
    rw [turnAll_cons rfl, turnAll_append (inner.turnAll _), turnAll_cons rfl]
    exact after.turnAll stack
  | .ifElse inner innerElse after => by
    rw [turnAll_cons rfl, turnAll_append (inner.turnAll _), turnAll_cons rfl,
      turnAll_append (innerElse.turnAll _), turnAll_cons rfl]
    exact after.turnAll stack
  | .loopUntil inner after => by
    rw [turnAll_cons rfl, turnAll_append (inner.turnAll _), turnAll_cons rfl]
    exact after.turnAll stack
  | .loopForever inner after => by
    rw [turnAll_cons rfl, turnAll_append (inner.turnAll _), turnAll_cons rfl]
    exact after.turnAll stack
  | .whileLoop inner after => by
    rw [turnAll_cons rfl, turnAll_append (inner.turnAll _), turnAll_cons rfl]
    exact after.turnAll stack
  | .switch inner arms after => by
    rw [turnAll_cons rfl, turnAll_append (inner.turnAll _), turnAll_append (arms.turnAll _),
      turnAll_cons rfl]
    exact after.turnAll stack

theorem CaseBodies.turnAll {statements : List FlowStatement} (stack : List Bracket) :
    CaseBodies statements → turnAll statements (.switch :: stack) = some (.switch :: stack)
  | .nil => rfl
  | .cons inner after => by
    rw [turnAll_cons rfl, turnAll_append (inner.turnAll _)]
    exact after.turnAll stack

end

/-- One row of structures behind another. -/
theorem WellBracketed.append {second : List FlowStatement} (later : WellBracketed second) :
    ∀ {first : List FlowStatement}, WellBracketed first → WellBracketed (first ++ second)
  | _, .nil => later
  | _, .ifThen inner after => by
    simpa using ifThen inner (later.append after)
  | _, .ifElse inner innerElse after => by
    simpa using ifElse inner innerElse (later.append after)
  | _, .loopUntil inner after => by
    simpa using loopUntil inner (later.append after)
  | _, .loopForever inner after => by
    simpa using loopForever inner (later.append after)
  | _, .whileLoop inner after => by
    simpa using whileLoop inner (later.append after)
  | _, .switch inner arms after => by
    simpa using switch inner arms (later.append after)

/-- Statements that finish the structures of a stack from the innermost one outwards. -/
inductive Finishes : List Bracket → List FlowStatement → Prop where
  | done {statements : List FlowStatement} (nested : WellBracketed statements) :
      Finishes [] statements
  | ifEnd {stack : List Bracket} {body rest : List FlowStatement} (inner : WellBracketed body)
      (after : Finishes stack rest) : Finishes (.ifPart :: stack) (body ++ .ifEnd :: rest)
  | elseStart {stack : List Bracket} {body rest : List FlowStatement} (inner : WellBracketed body)
      (after : Finishes (.elsePart :: stack) rest) :
      Finishes (.ifPart :: stack) (body ++ .elseStart :: rest)
  | elseEnd {stack : List Bracket} {body rest : List FlowStatement} (inner : WellBracketed body)
      (after : Finishes stack rest) : Finishes (.elsePart :: stack) (body ++ .ifEnd :: rest)
  | loopUntil {condition : Condition} {stack : List Bracket} {body rest : List FlowStatement}
      (inner : WellBracketed body) (after : Finishes stack rest) :
      Finishes (.loop :: stack) (body ++ .loopUntil condition :: rest)
  | loopForever {stack : List Bracket} {body rest : List FlowStatement}
      (inner : WellBracketed body) (after : Finishes stack rest) :
      Finishes (.loop :: stack) (body ++ .loopForever :: rest)
  | whileEnd {stack : List Bracket} {body rest : List FlowStatement} (inner : WellBracketed body)
      (after : Finishes stack rest) : Finishes (.whileLoop :: stack) (body ++ .whileEnd :: rest)
  | caseStart {value : Expr} {stack : List Bracket} {body rest : List FlowStatement}
      (inner : WellBracketed body) (after : Finishes (.switch :: stack) rest) :
      Finishes (.switch :: stack) (body ++ .caseStart value :: rest)
  | switchEnd {stack : List Bracket} {body rest : List FlowStatement} (inner : WellBracketed body)
      (after : Finishes stack rest) : Finishes (.switch :: stack) (body ++ .switchEnd :: rest)

namespace Finishes

variable {stack : List Bracket} {statements rest : List FlowStatement}

/-- Whole structures may stand in front. -/
theorem prepend {front : List FlowStatement} (hfront : WellBracketed front)
    (h : Finishes stack rest) : Finishes stack (front ++ rest) := by
  cases h with
  | done nested => exact .done (nested.append hfront)
  | ifEnd inner after => simpa using ifEnd (inner.append hfront) after
  | elseStart inner after => simpa using elseStart (inner.append hfront) after
  | elseEnd inner after => simpa using elseEnd (inner.append hfront) after
  | loopUntil inner after => simpa using loopUntil (inner.append hfront) after
  | loopForever inner after => simpa using loopForever (inner.append hfront) after
  | whileEnd inner after => simpa using whileEnd (inner.append hfront) after
  | caseStart inner after => simpa using caseStart (inner.append hfront) after
  | switchEnd inner after => simpa using switchEnd (inner.append hfront) after

theorem openIf {condition : Condition} (h : Finishes (.ifPart :: stack) rest) :
    Finishes stack (.ifStart condition :: rest) := by
  cases h with
  | ifEnd inner after => simpa using after.prepend (.ifThen inner .nil)
  | elseStart inner later =>
    cases later with
    | elseEnd innerElse after => simpa using after.prepend (.ifElse inner innerElse .nil)

theorem openLoop (h : Finishes (.loop :: stack) rest) : Finishes stack (.loopStart :: rest) := by
  cases h with
  | loopUntil inner after => simpa using after.prepend (.loopUntil inner .nil)
  | loopForever inner after => simpa using after.prepend (.loopForever inner .nil)

theorem openWhile {condition : Condition} (h : Finishes (.whileLoop :: stack) rest) :
    Finishes stack (.whileStart condition :: rest) := by
  cases h with
  | whileEnd inner after => simpa using after.prepend (.whileLoop inner .nil)

/-- What finishes a switch is structures, cases and the end of the switch. -/
theorem split_switch (h : Finishes (.switch :: stack) statements) :
    ∃ lead cases rest, statements = lead ++ (cases ++ .switchEnd :: rest) ∧ WellBracketed lead ∧
      CaseBodies cases ∧ Finishes stack rest := by
  generalize hswitch : Bracket.switch :: stack = all at h
  induction h with
  | @caseStart value _ body _ inner after ih =>
    obtain ⟨lead, cases, rest, rfl, hlead, hcases, hrest⟩ := ih hswitch
    exact ⟨body, .caseStart value :: (lead ++ cases), rest, by simp, inner, .cons hlead hcases,
      hrest⟩
  | switchEnd inner after =>
    cases hswitch
    exact ⟨_, [], _, rfl, inner, .nil, after⟩
  | _ => cases hswitch

theorem openSwitch {register : Register} (h : Finishes (.switch :: stack) rest) :
    Finishes stack (.switchStart register :: rest) := by
  obtain ⟨lead, cases, later, rfl, hlead, hcases, hlater⟩ := h.split_switch
  simpa using hlater.prepend (.switch hlead hcases .nil)

end Finishes

/-- Statements that empty a stack finish its structures. -/
theorem finishes_of_turnAll {statements : List FlowStatement} {stack : List Bracket}
    (h : turnAll statements stack = some []) : Finishes stack statements := by
  induction statements generalizing stack with
  | nil =>
    cases h
    exact .done .nil
  | cons statement rest ih =>
    rw [turnAll, List.foldlM_cons, Option.bind_eq_bind, Option.bind_eq_some_iff] at h
    obtain ⟨next, hturn, hrest⟩ := h
    have hlater := ih hrest
    cases statement with
    | ifStart condition =>
      cases hturn
      exact hlater.openIf
    | loopStart =>
      cases hturn
      exact hlater.openLoop
    | whileStart condition =>
      cases hturn
      exact hlater.openWhile
    | switchStart register =>
      cases hturn
      exact hlater.openSwitch
    | elseStart =>
      cases stack with
      | nil => cases hturn
      | cons bracket stack =>
        cases bracket <;> cases hturn
        exact .elseStart .nil hlater
    | ifEnd =>
      cases stack with
      | nil => cases hturn
      | cons bracket stack =>
        cases bracket <;> cases hturn
        · exact .ifEnd .nil hlater
        · exact .elseEnd .nil hlater
    | loopUntil condition =>
      cases stack with
      | nil => cases hturn
      | cons bracket stack =>
        cases bracket <;> cases hturn
        exact .loopUntil .nil hlater
    | loopForever =>
      cases stack with
      | nil => cases hturn
      | cons bracket stack =>
        cases bracket <;> cases hturn
        exact .loopForever .nil hlater
    | whileEnd =>
      cases stack with
      | nil => cases hturn
      | cons bracket stack =>
        cases bracket <;> cases hturn
        exact .whileEnd .nil hlater
    | caseStart value =>
      cases stack with
      | nil => cases hturn
      | cons bracket stack =>
        cases bracket <;> cases hturn
        exact .caseStart .nil hlater
    | switchEnd =>
      cases stack with
      | nil => cases hturn
      | cons bracket stack =>
        cases bracket <;> cases hturn
        exact .switchEnd .nil hlater

/-- Statements are well bracketed exactly when they bring an empty stack back. -/
theorem wellBracketed_iff_turnAll {statements : List FlowStatement} :
    WellBracketed statements ↔ turnAll statements [] = some [] := by
  constructor
  · intro h
    exact h.turnAll []
  · intro h
    cases finishes_of_turnAll h with
    | done nested => exact nested

/-! ## The open frames as a stack of brackets -/

/-- The structure that a frame is part of. -/
def OpenPart.bracket : OpenPart → Bracket
  | ifPart _ _ => .ifPart
  | elsePart _ _ => .elsePart
  | loop _ _ => .loop
  | whileLoop _ _ _ => .whileLoop
  | switchHead _ _ | casePart _ _ _ => .switch

/-- The statement that a step was made from, but for its operand. -/
def FlowStep.statement : FlowStep → FlowStatement
  | ifStart condition => .ifStart condition
  | elseStart _ => .elseStart
  | ifEnd _ => .ifEnd
  | loopStart => .loopStart
  | loopUntil condition => .loopUntil condition
  | loopForever _ => .loopForever
  | whileStart condition => .whileStart condition
  | whileEnd _ => .whileEnd
  | switchStart register => .switchStart register
  | caseStart value _ _ => .caseStart value
  | switchEnd _ => .switchEnd

/-- A turn of the open structures is a turn of their brackets. -/
theorem Turn.brackets {address : Int} {fresh number : Nat} {stack next : List OpenPart}
    {step : FlowStep} {settled : List (Nat × FrameKind)}
    (h : Turn address fresh stack step number next settled) :
    step.statement.turn (stack.map OpenPart.bracket) = some (next.map OpenPart.bracket) := by
  cases h <;> rfl

section Placing

variable {environment : Environment} {calls : List MacroCall} {location : Location}
  {layout next : Layout} {statement : FlowStatement}

/-- A statement and its step turn brackets alike. -/
theorem placeFlow_statement {step : FlowStep} {number size : Nat}
    (h : placeFlow environment calls location layout statement = .ok (step, number, size, next))
    (stack : List Bracket) : statement.turn stack = step.statement.turn stack := by
  unfold placeFlow at h
  obtain ⟨-, -, h⟩ := bind_eq_ok.mp h
  cases statement with
  | ifStart | loopStart | whileStart | switchStart =>
    cases h
    rfl
  | elseStart | loopUntil | whileEnd =>
    obtain ⟨⟨opener, frame, closed⟩, -, h⟩ := bind_eq_ok.mp h
    dsimp only at h
    split at h
    · cases h
      rfl
    · cases h
  | ifEnd =>
    obtain ⟨⟨opener, frame, closed⟩, -, h⟩ := bind_eq_ok.mp h
    dsimp only at h
    split at h
    · cases h
      rfl
    · cases h
      rfl
    · cases h
  | loopForever =>
    obtain ⟨⟨opener, frame, closed⟩, -, h⟩ := bind_eq_ok.mp h
    dsimp only at h
    split at h
    · split at h
      · cases h
        rfl
      · obtain ⟨-, h⟩ := demand_eq_ok.mp h
        cases h
        rfl
    · cases h
  | caseStart operand =>
    obtain ⟨⟨opener, frame, closed⟩, -, h⟩ := bind_eq_ok.mp h
    dsimp only at h
    split at h
    · obtain ⟨⟨value, operandNumber⟩, -, h⟩ := bind_eq_ok.mp h
      obtain ⟨compare, -, h⟩ := bind_eq_ok.mp h
      cases h
      cases stack with
      | nil => rfl
      | cons bracket rest => cases bracket <;> rfl
    · cases h
  | switchEnd =>
    obtain ⟨⟨opener, frame, closed⟩, -, h⟩ := bind_eq_ok.mp h
    dsimp only at h
    split at h
    · cases h
      rfl
    · cases h

/-- Taking the innermost structure of a layout. -/
theorem Tracks.closeFlow_cons {part : OpenPart} {rest : List OpenPart} (keyword : String)
    (h : Tracks layout.flow (part :: rest)) :
    ∃ frame, frame.kind = part.kind ∧ layout.closeFlow keyword = .ok (part.number, frame,
      { layout with flow := layout.flow.withOpened (rest.map OpenPart.number) }) := by
  obtain ⟨frame, hframe, hkind⟩ :=
    Option.map_eq_some_iff.mp (h.holds part List.mem_cons_self).kind
  refine ⟨frame, hkind, ?_⟩
  have hopened := h.opened
  rw [List.map_cons] at hopened
  simp only [Layout.closeFlow, FlowState.pop?, hopened, hframe]
  rfl

/-- A case without a value says why, unless the value traps. -/
theorem caseValue_eq_error {address : Int} {operand : Expr} {fault : Fault}
    (h : caseValue environment calls address operand = .error fault) :
    fault = .eval .trap ∨ ∃ cause, fault = .invalidCase cause := by
  simp only [caseValue, bind_eq_error] at h
  rcases h with hargued | ⟨argued, -, hbound | ⟨bound, -, h⟩⟩
  · obtain ⟨cause, -, rfl⟩ := mapError_eq_error.mp hargued
    exact .inr ⟨cause, rfl⟩
  · obtain ⟨cause, -, rfl⟩ := mapError_eq_error.mp hbound
    exact .inr ⟨cause, rfl⟩
  · split at h
    · cases h
    · cases h
      exact (Fault.unlessTrap_eq _ _).imp id fun hfault => ⟨_, hfault⟩

/-- A case without a size is too large. -/
theorem caseSize_eq_error {wide : Bool} {number : Number} {fault : Fault}
    (h : caseSize wide number = .error fault) : fault = .tooLarge .caseValue := by
  unfold caseSize at h
  repeat' split at h
  all_goals cases h
  rfl

/-- A flow statement that is refused has no turn among the open structures. -/
theorem placeFlow_refused {stack : List OpenPart} {fault : Fault}
    (h : placeFlow environment calls location layout statement = .error fault)
    (hflow : fault.isFlowControl = true) (htracks : Tracks layout.flow stack) :
    statement.turn (stack.map OpenPart.bracket) = none := by
  unfold placeFlow at h
  rcases bind_eq_error.mp h with hsegment | ⟨-, -, hplaced⟩
  · obtain rfl := Layout.requireSegment_eq_error hsegment
    cases hflow
  replace h := hplaced
  cases stack with
  | nil =>
    cases statement with
    | ifStart | loopStart | whileStart | switchStart => cases h
    | _ => rfl
  | cons part rest =>
    cases statement with
    | ifStart | loopStart | whileStart | switchStart => cases h
    | elseStart =>
      obtain ⟨frame, hkind, hclose⟩ := htracks.closeFlow_cons "ELSE"
      simp only [hclose, ok_bind, hkind] at h
      cases part <;> first | rfl | cases h
    | ifEnd =>
      obtain ⟨frame, hkind, hclose⟩ := htracks.closeFlow_cons "ENDIF"
      simp only [hclose, ok_bind, hkind] at h
      cases part <;> first | rfl | cases h
    | loopUntil condition =>
      obtain ⟨frame, hkind, hclose⟩ := htracks.closeFlow_cons "UNTIL"
      simp only [hclose, ok_bind, hkind] at h
      cases part <;> first | rfl | cases h
    | loopForever =>
      obtain ⟨frame, hkind, hclose⟩ := htracks.closeFlow_cons "FOREVER"
      simp only [hclose, ok_bind, hkind] at h
      cases part with
      | loop number opened =>
        -- The loop is there; only its size can be a fault.
        simp only [OpenPart.kind] at h
        repeat' split at h
        all_goals cases h
        cases hflow
      | _ => rfl
    | whileEnd =>
      obtain ⟨frame, hkind, hclose⟩ := htracks.closeFlow_cons "ENDWHILE"
      simp only [hclose, ok_bind, hkind] at h
      cases part <;> first | rfl | cases h
    | caseStart operand =>
      obtain ⟨frame, hkind, hclose⟩ := htracks.closeFlow_cons "CASE"
      simp only [hclose, ok_bind, hkind] at h
      split at h
      case h_1 =>
        -- The switch is there; only the value can be a fault.
        rcases bind_eq_error.mp h with hvalue | ⟨⟨value, found⟩, -, hsized⟩
        · rcases caseValue_eq_error hvalue with rfl | ⟨cause, rfl⟩ <;> cases hflow
        · rcases bind_eq_error.mp hsized with hsize | ⟨size, -, hnever⟩
          · obtain rfl := caseSize_eq_error hsize
            cases hflow
          · cases hnever
      case h_2 hmissing =>
        cases part with
        | switchHead number register =>
          exact absurd (htracks.holds _ List.mem_cons_self) (hmissing register none)
        | casePart switch number register =>
          exact absurd (htracks.kind?_switch _) (hmissing register none)
        | _ => rfl
    | switchEnd =>
      obtain ⟨frame, hkind, hclose⟩ := htracks.closeFlow_cons "ENDSWITCH"
      simp only [hclose, ok_bind, hkind] at h
      split at h
      case h_1 => cases h
      case h_2 hmissing =>
        cases part with
        | switchHead number register =>
          exact absurd (htracks.holds _ List.mem_cons_self) (hmissing register none)
        | casePart switch number register =>
          exact absurd (htracks.kind?_switch _) (hmissing register none)
        | _ => rfl

end Placing

end Asm65816
