import Asm65816.Proofs.Agreement
import Asm65816.Proofs.FlowStack

/-!
# Structured flow control in the emitted code

The operations of an assembled program, in the order in which they are emitted, are nested flow
structures and other operations, and every branch of a structure leads where the structure says.
The nesting is read from the front: behind an operation inside open structures, the rest of the
program finishes these structures from the innermost one outwards.
-/

namespace Asm65816

/-- An operation that is a flow statement. -/
def Deposit.Runs (deposit : Deposit) (step : FlowStep) : Prop :=
  ∃ number, deposit.operation = .flow step number

/-- The code of a `CASE` at `address`: a branch to the end of the switch if another case stands
before it, the comparison, and a branch to `next` when the values differ. -/
def CaseCode (register : Register) (follows : Bool) (address endAt next : Int)
    (bytes : List UInt8) : Prop :=
  ∃ (leave compare last : List UInt8) (value : Int) (wide : Bool),
    bytes = leave ++ compare ++ last ∧
    (if follows then ShortBranch alwaysOpcode address endAt leave else leave = []) ∧
    compare = register.opcode :: littleEndian value (if wide then 2 else 1) ∧
    ShortBranch Condition.zeroClear.opcode (address + leave.length + compare.length) next last

mutual

/-- Operations whose flow statements are nested, with branches that lead where they should. -/
inductive Structured : List Deposit → Prop where
  | nil : Structured []
  | plain {deposit : Deposit} {rest : List Deposit} (other : ∀ step, ¬deposit.Runs step)
      (after : Structured rest) : Structured (deposit :: rest)
  /-- `IF`, `ENDIF`. -/
  | ifThen {condition : Condition} {opener closer : Deposit} {body rest : List Deposit}
      (opens : opener.Runs (.ifStart condition)) (closes : closer.Runs (.ifEnd condition))
      (branch : ShortBranch condition.negation.opcode opener.address closer.address opener.bytes)
      (silent : closer.bytes = []) (inner : Structured body) (after : Structured rest) :
      Structured (opener :: body ++ closer :: rest)
  /-- `IF`, `ELSE`, `ENDIF`. -/
  | ifElse {condition : Condition} {opener middle closer : Deposit}
      {body otherwise rest : List Deposit} (opens : opener.Runs (.ifStart condition))
      (turns : middle.Runs (.elseStart condition)) (closes : closer.Runs (.ifEnd condition))
      (branch : ShortBranch condition.negation.opcode opener.address (middle.address + 2)
        opener.bytes)
      (leave : ShortBranch alwaysOpcode middle.address closer.address middle.bytes)
      (silent : closer.bytes = []) (inner : Structured body) (innerElse : Structured otherwise)
      (after : Structured rest) :
      Structured (opener :: body ++ middle :: otherwise ++ closer :: rest)
  /-- `DO`, `UNTIL`. -/
  | loopUntil {condition : Condition} {opener closer : Deposit} {body rest : List Deposit}
      (opens : opener.Runs .loopStart) (closes : closer.Runs (.loopUntil condition))
      (silent : opener.bytes = [])
      (branch : ShortBranch condition.negation.opcode closer.address opener.address closer.bytes)
      (inner : Structured body) (after : Structured rest) :
      Structured (opener :: body ++ closer :: rest)
  /-- `DO`, `FOREVER`. -/
  | loopForever {long : Bool} {opener closer : Deposit} {body rest : List Deposit}
      (opens : opener.Runs .loopStart) (closes : closer.Runs (.loopForever long))
      (silent : opener.bytes = [])
      (branch : if -128 ≤ opener.address - (closer.address + 2) ∧
          opener.address - (closer.address + 2) ≤ 127 then
        ShortBranch alwaysOpcode closer.address opener.address closer.bytes
        else LongBranch alwaysLongOpcode closer.address opener.address closer.bytes)
      (inner : Structured body) (after : Structured rest) :
      Structured (opener :: body ++ closer :: rest)
  /-- `WHILE`, `ENDWHILE`. -/
  | whileLoop {condition : Condition} {opener closer : Deposit} {body rest : List Deposit}
      (opens : opener.Runs (.whileStart condition)) (closes : closer.Runs (.whileEnd condition))
      (branch : ShortBranch condition.negation.opcode opener.address (closer.address + 2)
        opener.bytes)
      (again : ShortBranch condition.opcode closer.address (opener.address + 2) closer.bytes)
      (inner : Structured body) (after : Structured rest) :
      Structured (opener :: body ++ closer :: rest)
  /-- `SWITCH`, any number of `CASE`s, `ENDSWITCH`. -/
  | switch {register : Register} {opener closer : Deposit} {lead arms rest : List Deposit}
      {next : Int} (opens : opener.Runs (.switchStart register))
      (closes : closer.Runs (.switchEnd register)) (silent : opener.bytes = [])
      (silentEnd : closer.bytes = []) (inner : Structured lead)
      (cases : Arms register closer.address false arms next) (after : Structured rest) :
      Structured (opener :: lead ++ arms ++ closer :: rest)

/-- The cases of a switch that ends at the given address, all of them or those that follow
another one, and the address to which a case before them branches when the values differ. -/
inductive Arms : Register → Int → Bool → List Deposit → Int → Prop where
  | none (register : Register) (endAt : Int) (follows : Bool) :
      Arms register endAt follows [] endAt
  | arm {register : Register} {endAt next : Int} {follows wide : Bool} {value : Expr}
      {opener : Deposit} {body others : List Deposit}
      (opens : opener.Runs (.caseStart value follows wide))
      (code : CaseCode register follows opener.address endAt next opener.bytes)
      (inner : Structured body) (after : Arms register endAt true others next) :
      Arms register endAt follows (opener :: body ++ others) (opener.address + 2)

end

/-! ## The flow statements of both walks -/

/-- Operations with what their flow statements did to the frames in the first walk, up to the
frames `final` with which the second walk emits them. -/
inductive FlowRun (final : FlowState) : FlowState → List Deposit → Prop where
  | done : FlowRun final final []
  | plain {state : FlowState} {deposit : Deposit} {deposits : List Deposit}
      (other : ∀ step, ¬deposit.Runs step) (rest : FlowRun final state deposits) :
      FlowRun final state (deposit :: deposits)
  | statement {location : Location} {state next : FlowState} {deposit : Deposit}
      {deposits : List Deposit} {step : FlowStep} {number : Nat} {code : Code}
      (runs : deposit.operation = .flow step number)
      (move : FlowMove location deposit.address state step number next)
      (coded : step.code final deposit.address number = .ok code)
      (bytes : deposit.bytes = code.bytes) (rest : FlowRun final next deposits) :
      FlowRun final state (deposit :: deposits)

/-- Only flow statements change the frames. -/
theorem Layout.moves_flow {location : Location} {layout next : Layout} {placed : PlacedOperation}
    (h : placed.Moves location layout next) (hplain : ∀ step number, placed ≠ .flow step number) :
    next.flow = layout.flow := by
  cases placed with
  | createSegment name start size fileOffset =>
    obtain ⟨-, rfl⟩ := addSegment_eq_ok.mp h
    rfl
  | changeSegment name =>
    obtain ⟨segment, -, rfl⟩ := enter_eq_ok.mp h
    rfl
  | setOrigin address =>
    obtain ⟨-, rfl⟩ := h
    rfl
  | setWidth register wide =>
    obtain rfl := h
    cases register
    · rfl
    · rfl
  | flow step number => exact absurd rfl (hplain step number)
  | _ => exact Alike.flow h

/-- Taking up the size of an operation does not change the frames. -/
theorem Layout.occupy_flow {layout next : Layout} {size : Nat} (h : layout.occupy size = .ok next) :
    next.flow = layout.flow := by
  obtain ⟨-, rfl⟩ | ⟨-, h⟩ := occupy_eq_ok.mp h
  · rfl
  · exact (advance_shared h).2.1

/-- The flow statements of a program that both walks go through. -/
theorem FirstWalk.flowRun {environment : Environment} {final first : Layout} {tasks : List Task}
    {trace : List (Layout × Event)} {labels : List Resolution} {emission last : Emission}
    {deposits : List Deposit} (walk : FirstWalk environment first tasks trace final)
    (second : SecondWalk labels emission (trace.map Prod.snd) deposits last)
    (h : final.Follows first emission.layout) : FlowRun final.flow first.flow deposits := by
  induction walk generalizing emission deposits with
  | done layout =>
    cases second
    exact .done
  | step advanced rest ih =>
    have hmove := Task.advance_move advanced
    have hfollows := (hmove.follows labels rest.within h).2
    rw [List.map_cons] at second
    cases hmove with
    | enter call location =>
      cases second with
      | enter later => exact ih later (hfollows _ rfl)
    | leave location =>
      cases second with
      | leave later => exact ih later (hfollows _ rfl)
    | @operation _ _ placed location moves occupies =>
      cases second with
      | @operation _ _ _ _ _ _ emitted _ _ emits taken later =>
        have hrest := ih later (hfollows _ (failingAt_eq_ok.mpr taken))
        by_cases hflow : ∃ step number, placed = .flow step number
        · obtain ⟨step, number, rfl⟩ := hflow
          obtain ⟨hmove, hmid⟩ := moves
          obtain ⟨code, hcode, hemitted⟩ := bind_eq_ok.mp emits
          cases hemitted
          rw [Layout.occupy_flow occupies] at hrest
          rw [← h.address] at hmove
          rw [h.flow] at hcode
          exact .statement rfl hmove hcode rfl hrest
        · rw [Layout.occupy_flow occupies, Layout.moves_flow moves fun step number heq =>
            hflow ⟨step, number, heq⟩] at hrest
          refine .plain (fun step hruns => ?_) hrest
          obtain ⟨number, hnumber⟩ := hruns
          exact hflow ⟨step, number, hnumber⟩

/-- The frames out of the stack are final. -/
theorem FlowRun.keeps {final state : FlowState} {deposits : List Deposit} {stack : List OpenPart}
    (run : FlowRun final state deposits) (h : Tracks state stack) :
    state.Keeps final (liveNumbers stack) := by
  induction run generalizing stack with
  | done => exact .withOpened _ _ _
  | plain other rest ih => exact ih h
  | statement runs move coded bytes rest ih =>
    obtain ⟨after, settled, hturn, htracks, hkeeps, -⟩ := move.turns h
    have hlater := ih htracks
    refine ⟨Nat.le_trans hkeeps.length hlater.length, fun other hother hstack => ?_,
      fun other hother => ?_⟩
    · have hafter : other ∉ liveNumbers after := by
        intro hmem
        rcases hturn.live hmem with hold | hfresh
        · exact hstack hold
        · omega
      have hframe := hlater.frame other (Nat.lt_of_lt_of_le hother hkeeps.length) hafter
      exact hframe.trans (hkeeps.frame other hother hstack)
    · have haddress := hlater.address other (Nat.lt_of_lt_of_le hother hkeeps.length)
      exact haddress.trans (hkeeps.address other hother)

/-- What was noted in a settled frame is what the second walk finds there. -/
theorem FlowRun.noted {final state : FlowState} {deposits : List Deposit} {stack : List OpenPart}
    {settled : List (Nat × FrameKind)} {number : Nat} {kind : FrameKind}
    (run : FlowRun final state deposits) (h : Tracks state stack)
    (hsettles : Settles state stack settled) (hmem : (number, kind) ∈ settled) :
    final.kind? number = some kind := by
  have hkind := hsettles.kind number kind hmem
  rw [← hkind]
  exact (run.keeps h).kind (FlowState.lt_of_kind? hkind) (hsettles.gone number kind hmem)

/-! ## Finishing the open structures -/

/-- The rest of a program inside the structures of a stack: what is left of the innermost one, and
then the rest inside the others. What the frames say is said of the frames `final`. -/
inductive Pending (final : FlowState) : List OpenPart → List Deposit → Prop where
  | done {items : List Deposit} (structured : Structured items) : Pending final [] items
  | ifEnd {number : Nat} {condition : Condition} {stack : List OpenPart} {closer : Deposit}
      {body rest : List Deposit} (closes : closer.Runs (.ifEnd condition))
      (silent : closer.bytes = [])
      (noted : final.kind? number = some (.ifFrame condition none (some closer.address)))
      (inner : Structured body) (after : Pending final stack rest) :
      Pending final (.ifPart number condition :: stack) (body ++ closer :: rest)
  | elseStart {number : Nat} {condition : Condition} {stack : List OpenPart}
      {middle closer : Deposit} {body otherwise rest : List Deposit}
      (turns : middle.Runs (.elseStart condition)) (closes : closer.Runs (.ifEnd condition))
      (leave : ShortBranch alwaysOpcode middle.address closer.address middle.bytes)
      (silent : closer.bytes = [])
      (noted : final.kind? number = some (.ifFrame condition (some middle.address) none))
      (inner : Structured body) (innerElse : Structured otherwise)
      (after : Pending final stack rest) :
      Pending final (.ifPart number condition :: stack)
        (body ++ middle :: otherwise ++ closer :: rest)
  | elseEnd {number : Nat} {condition : Condition} {stack : List OpenPart} {closer : Deposit}
      {body rest : List Deposit} (closes : closer.Runs (.ifEnd condition))
      (silent : closer.bytes = [])
      (noted : final.kind? number = some (.elseFrame condition (some closer.address)))
      (inner : Structured body) (after : Pending final stack rest) :
      Pending final (.elsePart number condition :: stack) (body ++ closer :: rest)
  | loopUntil {number : Nat} {opened : Int} {condition : Condition} {stack : List OpenPart}
      {closer : Deposit} {body rest : List Deposit} (closes : closer.Runs (.loopUntil condition))
      (branch : ShortBranch condition.negation.opcode closer.address opened closer.bytes)
      (inner : Structured body) (after : Pending final stack rest) :
      Pending final (.loop number opened :: stack) (body ++ closer :: rest)
  | loopForever {number : Nat} {opened : Int} {long : Bool} {stack : List OpenPart}
      {closer : Deposit} {body rest : List Deposit} (closes : closer.Runs (.loopForever long))
      (branch : if -128 ≤ opened - (closer.address + 2) ∧ opened - (closer.address + 2) ≤ 127 then
        ShortBranch alwaysOpcode closer.address opened closer.bytes
        else LongBranch alwaysLongOpcode closer.address opened closer.bytes)
      (inner : Structured body) (after : Pending final stack rest) :
      Pending final (.loop number opened :: stack) (body ++ closer :: rest)
  | whileEnd {number : Nat} {condition : Condition} {opened : Int} {stack : List OpenPart}
      {closer : Deposit} {body rest : List Deposit} (closes : closer.Runs (.whileEnd condition))
      (again : ShortBranch condition.opcode closer.address (opened + 2) closer.bytes)
      (noted : final.kind? number = some (.whileFrame condition (some closer.address)))
      (inner : Structured body) (after : Pending final stack rest) :
      Pending final (.whileLoop number condition opened :: stack) (body ++ closer :: rest)
  | switchHead {number : Nat} {register : Register} {stack : List OpenPart} {closer : Deposit}
      {lead arms rest : List Deposit} {next : Int} (closes : closer.Runs (.switchEnd register))
      (silent : closer.bytes = [])
      (noted : final.kind? number = some (.switchFrame register (some closer.address)))
      (inner : Structured lead) (cases : Arms register closer.address false arms next)
      (after : Pending final stack rest) :
      Pending final (.switchHead number register :: stack) (lead ++ arms ++ closer :: rest)
  | casePart {switch number : Nat} {register : Register} {stack : List OpenPart}
      {closer : Deposit} {body arms rest : List Deposit} {next : Int}
      (closes : closer.Runs (.switchEnd register)) (silent : closer.bytes = [])
      (noted : final.kind? number = some (.caseFrame switch (some next)))
      (owned : final.kind? switch = some (.switchFrame register (some closer.address)))
      (inner : Structured body) (cases : Arms register closer.address true arms next)
      (after : Pending final stack rest) :
      Pending final (.casePart switch number register :: stack) (body ++ arms ++ closer :: rest)

/-- What can stand in front of structured operations can stand in front of the rest of a program
inside open structures. -/
theorem Pending.prepend {final : FlowState} {stack : List OpenPart} {front items : List Deposit}
    (h : Pending final stack items)
    (hfront : ∀ tail, Structured tail → Structured (front ++ tail)) :
    Pending final stack (front ++ items) := by
  cases h with
  | done structured => exact .done (hfront _ structured)
  | ifEnd closes silent noted inner after =>
    rw [← List.append_assoc]
    exact .ifEnd closes silent noted (hfront _ inner) after
  | elseStart turns closes leave silent noted inner innerElse after =>
    rw [← List.append_assoc, ← List.append_assoc]
    exact .elseStart turns closes leave silent noted (hfront _ inner) innerElse after
  | elseEnd closes silent noted inner after =>
    rw [← List.append_assoc]
    exact .elseEnd closes silent noted (hfront _ inner) after
  | loopUntil closes branch inner after =>
    rw [← List.append_assoc]
    exact .loopUntil closes branch (hfront _ inner) after
  | loopForever closes branch inner after =>
    rw [← List.append_assoc]
    exact .loopForever closes branch (hfront _ inner) after
  | whileEnd closes again noted inner after =>
    rw [← List.append_assoc]
    exact .whileEnd closes again noted (hfront _ inner) after
  | switchHead closes silent noted inner cases after =>
    rw [← List.append_assoc, ← List.append_assoc]
    exact .switchHead closes silent noted (hfront _ inner) cases after
  | casePart closes silent noted owned inner cases after =>
    rw [← List.append_assoc, ← List.append_assoc]
    exact .casePart closes silent noted owned (hfront _ inner) cases after

/-- A statement without code has no bytes. -/
theorem FlowStep.code_silent {flow : FlowState} {address : Int} {number : Nat} {step : FlowStep}
    {code : Code} (h : step.code flow address number = .ok code) (hlength : step.length = 0) :
    code.bytes = [] :=
  List.eq_nil_of_length_eq_zero ((FlowStep.code_length h).trans hlength)

/-- A `CASE` has its branches once its frame and that of its switch are complete. -/
theorem caseCode_of_noted {final : FlowState} {address nextAt endAt : Int} {switch number : Nat}
    {register : Register} {value : Expr} {follows wide : Bool} {code : Code}
    (hcode : (FlowStep.caseStart value follows wide).code final address number = .ok code)
    (hnoted : final.kind? number = some (.caseFrame switch (some nextAt)))
    (howned : final.kind? switch = some (.switchFrame register (some endAt))) :
    CaseCode register follows address endAt nextAt code.bytes := by
  obtain ⟨frame, hframe, hkind⟩ := Option.map_eq_some_iff.mp hnoted
  obtain ⟨owner, howner, hswitch⟩ := Option.map_eq_some_iff.mp howned
  obtain ⟨leave, compare, last, operand, hbytes, hleave, hcompare, hlast⟩ :=
    FlowStep.caseStart_code hframe hkind howner hswitch hcode
  exact ⟨leave, compare, last, operand, wide, hbytes, hleave, hcompare, hlast⟩

/-- A flow statement in front of the rest of a program: what the rest finishes was open before or
is opened by the statement. -/
theorem Turn.pending {final state : FlowState} {stack after : List OpenPart} {step : FlowStep}
    {number : Nat} {settled : List (Nat × FrameKind)} {deposit : Deposit} {items : List Deposit}
    {code : Code}
    (turn : Turn deposit.address state.frames.length stack step number after settled)
    (h : Tracks state stack) (hkeeps : state.Keeps final (liveNumbers stack))
    (hnoted : ∀ number kind, (number, kind) ∈ settled → final.kind? number = some kind)
    (hruns : deposit.operation = .flow step number)
    (hcode : step.code final deposit.address number = .ok code)
    (hbytes : deposit.bytes = code.bytes) (hafter : Pending final after items) :
    Pending final stack (deposit :: items) := by
  have hstatement : deposit.Runs step := ⟨number, hruns⟩
  cases turn with
  | ifStart condition =>
    cases hafter with
    | @ifEnd _ _ _ closer body rest closes silent noted inner after =>
      obtain ⟨frame, hframe, hkind⟩ := Option.map_eq_some_iff.mp noted
      have hbranch := FlowStep.ifStart_code_end hframe hkind hcode
      rw [← hbytes] at hbranch
      have hwhole : Pending final stack ((deposit :: body ++ [closer]) ++ rest) :=
        after.prepend fun tail htail => by
          simpa using Structured.ifThen hstatement closes hbranch silent inner htail
      simpa using hwhole
    | @elseStart _ _ _ middle closer body otherwise rest turns closes leave silent noted inner
        innerElse after =>
      obtain ⟨frame, hframe, hkind⟩ := Option.map_eq_some_iff.mp noted
      have hbranch := FlowStep.ifStart_code_else hframe hkind hcode
      rw [← hbytes] at hbranch
      have hwhole : Pending final stack
          ((deposit :: body ++ middle :: otherwise ++ [closer]) ++ rest) :=
        after.prepend fun tail htail => by
          simpa using Structured.ifElse hstatement turns closes hbranch leave silent inner
            innerElse htail
      simpa using hwhole
  | elseStart opener condition rest =>
    cases hafter with
    | elseEnd closes silent noted inner after =>
      obtain ⟨frame, hframe, hkind⟩ := Option.map_eq_some_iff.mp noted
      have hbranch := FlowStep.elseStart_code hframe hkind hcode
      rw [← hbytes] at hbranch
      exact Pending.elseStart hstatement closes hbranch silent
        (hnoted _ _ (List.mem_singleton_self _)) .nil inner after
  | ifEnd opener condition rest =>
    exact Pending.ifEnd hstatement (hbytes.trans (FlowStep.code_silent hcode rfl))
      (hnoted _ _ (List.mem_singleton_self _)) .nil hafter
  | elseEnd opener condition rest =>
    exact Pending.elseEnd hstatement (hbytes.trans (FlowStep.code_silent hcode rfl))
      (hnoted _ _ (List.mem_singleton_self _)) .nil hafter
  | loopStart =>
    have hsilent := hbytes.trans (FlowStep.code_silent hcode rfl)
    cases hafter with
    | @loopUntil _ _ _ _ closer body rest closes branch inner after =>
      have hwhole : Pending final stack ((deposit :: body ++ [closer]) ++ rest) :=
        after.prepend fun tail htail => by
          simpa using Structured.loopUntil hstatement closes hsilent branch inner htail
      simpa using hwhole
    | @loopForever _ _ _ _ closer body rest closes branch inner after =>
      have hwhole : Pending final stack ((deposit :: body ++ [closer]) ++ rest) :=
        after.prepend fun tail htail => by
          simpa using Structured.loopForever hstatement closes hsilent branch inner htail
      simpa using hwhole
  | loopUntil opener opened condition rest =>
    obtain ⟨-, hopened⟩ := h.holds _ List.mem_cons_self
    obtain ⟨frame, hframe, rfl⟩ := hkeeps.opened hopened
    have hbranch := FlowStep.loopUntil_code hframe hcode
    rw [← hbytes] at hbranch
    exact Pending.loopUntil hstatement hbranch .nil hafter
  | @loopForever long opened opener rest reach =>
    obtain ⟨-, hopened⟩ := h.holds _ List.mem_cons_self
    obtain ⟨frame, hframe, rfl⟩ := hkeeps.opened hopened
    have hbranch := FlowStep.loopForever_code hframe hcode
    rw [← hbytes] at hbranch
    refine Pending.loopForever hstatement ?_ .nil hafter
    cases long with
    | true =>
      rw [if_neg fun hshort => Bool.noConfusion (reach.mpr hshort)]
      exact hbranch
    | false =>
      rw [if_pos (reach.mp rfl)]
      exact hbranch
  | whileStart condition =>
    cases hafter with
    | @whileEnd _ _ _ _ closer body rest closes again noted inner after =>
      obtain ⟨frame, hframe, hkind⟩ := Option.map_eq_some_iff.mp noted
      have hbranch := FlowStep.whileStart_code hframe hkind hcode
      rw [← hbytes] at hbranch
      have hwhole : Pending final stack ((deposit :: body ++ [closer]) ++ rest) :=
        after.prepend fun tail htail => by
          simpa using Structured.whileLoop hstatement closes hbranch again inner htail
      simpa using hwhole
  | whileEnd opener condition opened rest =>
    obtain ⟨-, hopened⟩ := h.holds _ List.mem_cons_self
    obtain ⟨frame, hframe, rfl⟩ := hkeeps.opened hopened
    have hbranch := FlowStep.whileEnd_code hframe hcode
    rw [← hbytes] at hbranch
    exact Pending.whileEnd hstatement hbranch (hnoted _ _ (List.mem_singleton_self _)) .nil hafter
  | switchStart register =>
    have hsilent := hbytes.trans (FlowStep.code_silent hcode rfl)
    cases hafter with
    | @switchHead _ _ _ closer lead arms rest next closes silent noted inner cases after =>
      have hwhole : Pending final stack ((deposit :: lead ++ arms ++ [closer]) ++ rest) :=
        after.prepend fun tail htail => by
          simpa using Structured.switch hstatement closes hsilent silent inner cases htail
      simpa using hwhole
  | firstCase opener register value wide rest =>
    cases hafter with
    | @casePart _ _ _ _ closer body arms rest next closes silent noted owned inner cases after =>
      have hbranches := caseCode_of_noted hcode noted owned
      rw [← hbytes] at hbranches
      exact Pending.switchHead closes silent owned .nil (.arm hstatement hbranches inner cases)
        after
  | nextCase switch opener register value wide rest =>
    cases hafter with
    | @casePart _ _ _ _ closer body arms rest next closes silent noted owned inner cases after =>
      have hbranches := caseCode_of_noted hcode noted owned
      rw [← hbytes] at hbranches
      exact Pending.casePart closes silent (hnoted _ _ (List.mem_singleton_self _)) owned .nil
        (.arm hstatement hbranches inner cases) after
  | emptySwitchEnd opener register rest =>
    exact Pending.switchHead hstatement (hbytes.trans (FlowStep.code_silent hcode rfl))
      (hnoted _ _ (List.mem_singleton_self _)) .nil (.none _ _ _) hafter
  | switchEnd switch opener register rest =>
    exact Pending.casePart hstatement (hbytes.trans (FlowStep.code_silent hcode rfl))
      (hnoted _ _ List.mem_cons_self) (hnoted _ _ (by simp)) .nil (.none _ _ _) hafter

/-- What is left of a program finishes the structures that are open. -/
theorem FlowRun.pending {final state : FlowState} {deposits : List Deposit}
    {stack : List OpenPart} (run : FlowRun final state deposits) (h : Tracks state stack)
    (hend : final.innermost? = none) : Pending final stack deposits := by
  induction run generalizing stack with
  | done =>
    cases stack with
    | nil => exact .done .nil
    | cons part rest =>
      -- A structure in progress has an open frame, and at the end there is none.
      obtain ⟨frame, hframe, -⟩ :=
        Option.map_eq_some_iff.mp (h.holds part List.mem_cons_self).kind
      simp [FlowState.innermost?, h.opened, hframe] at hend
  | @plain _ deposit deposits other rest ih =>
    have hfront (tail : List Deposit) (htail : Structured tail) : Structured ([deposit] ++ tail) :=
      .plain other htail
    exact (ih h).prepend hfront
  | statement runs move coded bytes rest ih =>
    obtain ⟨after, settled, hturn, htracks, hkeeps, hsettles⟩ := move.turns h
    have hrun : FlowRun final _ (_ :: _) := .statement runs move coded bytes rest
    exact hturn.pending h (hrun.keeps h)
      (fun number kind hmem => rest.noted htracks hsettles hmem) runs coded bytes (ih htracks)

end Asm65816
