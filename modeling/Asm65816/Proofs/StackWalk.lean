import Asm65816.Proofs.MacroStack
import Asm65816.Proofs.WalkHistory

/-!
# The stack along the first walk

The tasks of the first walk carry the macro calls that they stand in. The machine with one stack
does the same tasks one after the other: whenever the walk comes to an action, the machine comes to
it too, with the layout of the walk, and the calls on its stack are those of the task.
-/

namespace Asm65816

/-- On the way to having nothing but `left` to do, the machine comes by another state. -/
inductive ComesBy (environment : Environment) (left : List Order) :
    FrameMachine → FrameMachine → Prop where
  | here (machine : FrameMachine) : ComesBy environment left machine machine
  | step {machine later : FrameMachine} (more : left.length < machine.orders.length)
      (rest : ComesBy environment left (machine.step environment) later) :
      ComesBy environment left machine later

section Way

variable {environment : Environment} {left : List Order} {machine middle later : FrameMachine}

theorem ComesBy.trans (h : ComesBy environment left machine middle)
    (h' : ComesBy environment left middle later) : ComesBy environment left machine later := by
  induction h with
  | here machine => exact h'
  | step more rest ih => exact .step more (ih h')

/-- The way to having less to do goes further. -/
theorem ComesBy.mono {less : List Order} (h : ComesBy environment left machine later)
    (hle : less.length ≤ left.length) : ComesBy environment less machine later := by
  induction h with
  | here machine => exact .here _
  | step more rest ih => exact .step (Nat.lt_of_le_of_lt hle more) ih

/-- An order is obeyed in one step. -/
theorem ComesBy.obey {order : Order} {orders : List Order} (hle : left.length ≤ orders.length)
    (horders : machine.orders = order :: orders)
    (h : ComesBy environment left (machine.obey environment orders order) later) :
    ComesBy environment left machine later := by
  refine .step ?_ ?_
  · rw [horders, List.length_cons]
    omega
  · rw [FrameMachine.step, horders]
    exact h

/-- The machine comes by the state in which it has nothing else left to do. -/
theorem Returns.comesBy (h : Returns environment left machine later) :
    ComesBy environment left machine later := by
  induction h with
  | done => exact .here _
  | step more rest ih => exact .step more ih

/-- The machine returns when it comes by a state with nothing else left to do. -/
theorem ComesBy.returns (h : ComesBy environment left machine later)
    (hleft : later.orders = left) : Returns environment left machine later := by
  induction h with
  | here machine => exact .done hleft
  | step more rest ih => exact .step more (ih hleft)

/-- The names on the stack are different on the way. -/
theorem ComesBy.nested (h : ComesBy environment left machine later)
    (hnested : Nested environment machine.frames) : Nested environment later.frames := by
  induction h with
  | here machine => exact hnested
  | step more rest ih => exact ih (FrameMachine.step_nested hnested)

end Way

/-! ## Orders and tasks -/

/-- The first of the further arguments that are left, and those behind it. -/
theorem MacroCall.further_of_drop {call : MacroCall} {first : Nat} {value : Expr}
    {rest : List Expr} (h : call.furtherArguments.drop first = value :: rest) :
    call.furtherArguments[first]? = some value ∧ call.furtherArguments.drop (first + 1) = rest := by
  constructor
  · rw [← List.head?_drop, h, List.head?_cons]
  · rw [← List.tail_drop, h, List.tail_cons]

/-- Orders that do the given tasks from a stack of calls. An expansion of a block leaves the stack
alone, a call is closed at the end of its expansion, and a loop gives the round back at the end of
its own. -/
inductive Does : List Order → List MacroCall → List Task → Prop where
  | nil (frames : List MacroCall) : Does [] frames []
  | lay {orders : List Order} {frames : List MacroCall} {tasks : List Task} (action : Action)
      (rest : Does orders frames tasks) :
      Does (.lay action :: orders) frames (.action frames action :: tasks)
  | startRound {orders : List Order} {frames : List MacroCall} {tasks : List Task} (index : Nat)
      (rest : Does orders (frames.modifyHead fun call => call.inRound (some index)) tasks) :
      Does (.startRound index :: orders) frames tasks
  | leaveBlock {orders : List Order} {frames : List MacroCall} {tasks : List Task}
      (location : Location) (rest : Does orders frames tasks) :
      Does orders frames (.leave location :: tasks)
  | leaveCall {orders : List Order} {frames : List MacroCall} {tasks : List Task}
      (location : Location) (rest : Does orders frames.tail tasks) :
      Does (.closeCall :: orders) frames (.leave location :: tasks)
  | leaveLoop {orders : List Order} {frames : List MacroCall} {tasks : List Task}
      (location : Location) (round : Option (Nat × Expr))
      (rest : Does orders (frames.modifyHead fun call => { call with round := round }) tasks) :
      Does (.endRounds round :: orders) frames (.leave location :: tasks)

namespace Does

variable {environment : Environment} {orders : List Order} {frames : List MacroCall}
  {tasks : List Task}

/-- The orders for a body do its tasks. -/
theorem body (h : Does orders frames tasks) (actions : List Action) :
    Does (layOrders actions ++ orders) frames (bodyTasks frames actions ++ tasks) := by
  induction actions with
  | nil => exact h
  | cons action rest ih => exact .lay action ih

/-- The orders for rounds do the tasks of the rounds, whatever round the call was in before. -/
theorem rounds {call : MacroCall} {outer : List MacroCall} {actions : List Action}
    (h : ∀ found, Does orders ({ call with round := found } :: outer) tasks) (values : List Expr)
    (first : Nat) (hvalues : call.furtherArguments.drop first = values)
    (found : Option (Nat × Expr)) :
    Does (roundOrders (List.range' first values.length) actions ++ orders)
      ({ call with round := found } :: outer)
      (roundTasks call outer (values.zipIdx first) actions ++ tasks) := by
  induction values generalizing first found with
  | nil => exact h found
  | cons value rest ih =>
    obtain ⟨hvalue, hrest⟩ := MacroCall.further_of_drop hvalues
    have hlater := (ih (first + 1) hrest (some (first, value))).body actions
    simp only [roundOrders, roundTasks, List.length_cons, List.range'_succ, List.zipIdx_cons,
      List.flatMap_cons, List.cons_append, List.append_assoc]
    refine .startRound first ?_
    rw [List.modifyHead_cons, MacroCall.inRound_of_further hvalue]
    exact hlater

/-- An action leaves orders that do the tasks it leaves. -/
theorem advance {layout next : Layout} {action : Action} {event : Event} {more : List Task}
    (h : Does orders frames tasks)
    (hadvance : Task.advance environment layout (.action frames action) =
      .ok (event, next, more)) :
    ∃ frames' orders', FrameMachine.attempt environment frames layout orders action =
      .ok ⟨frames', next, orders', none⟩ ∧ Does orders' frames' (more ++ tasks) := by
  cases action with
  | operation operation location =>
    obtain ⟨placed, hplaced, hadvance⟩ := bind_eq_ok.mp hadvance
    obtain ⟨occupied, hoccupied, hadvance⟩ := bind_eq_ok.mp hadvance
    cases hadvance
    exact ⟨frames, orders, bind_eq_ok.mpr ⟨placed, hplaced, bind_eq_ok.mpr ⟨_, hoccupied, rfl⟩⟩, h⟩
  | callMacro name operands location =>
    obtain ⟨⟨call, body⟩, hopened, hadvance⟩ := bind_eq_ok.mp hadvance
    cases hadvance
    refine ⟨call :: frames, _, bind_eq_ok.mpr ⟨(call, body), hopened, rfl⟩, ?_⟩
    rw [List.append_assoc]
    exact Does.body (.leaveCall location h) body
  | conditional arms location =>
    obtain ⟨body, hbody, hadvance⟩ := bind_eq_ok.mp hadvance
    cases hadvance
    refine ⟨frames, _, bind_eq_ok.mpr ⟨body, hbody, rfl⟩, ?_⟩
    rw [List.append_assoc]
    exact Does.body (.leaveBlock location h) body
  | argumentLoop body location =>
    cases frames with
    | nil => cases hadvance
    | cons call outer =>
      cases hadvance
      refine ⟨call :: outer, _, rfl, ?_⟩
      rw [List.append_assoc, List.range_eq_range']
      exact rounds (fun found => .leaveLoop location call.round h) _ 0 rfl call.round

/-- Orders for an action come to it, with the calls of the action on the stack. -/
theorem comesBy_action {calls : List MacroCall} {action : Action}
    (h : Does orders frames (.action calls action :: tasks)) (layout : Layout) :
    ∃ rest, ComesBy environment [] ⟨frames, layout, orders, none⟩
      ⟨calls, layout, .lay action :: rest, none⟩ ∧ Does rest calls tasks := by
  generalize htasks : Task.action calls action :: tasks = all at h
  induction h with
  | nil => cases htasks
  | lay action rest ih =>
    cases htasks
    exact ⟨_, .here _, rest⟩
  | startRound index rest ih =>
    obtain ⟨later, hlater, hdoes⟩ := ih htasks
    exact ⟨later, .obey (Nat.zero_le _) rfl hlater, hdoes⟩
  | leaveBlock | leaveCall | leaveLoop => cases htasks

/-- Orders for the end of an expansion come behind it. -/
theorem comesBy_leave {location : Location} (h : Does orders frames (.leave location :: tasks))
    (layout : Layout) :
    ∃ frames' orders', ComesBy environment [] ⟨frames, layout, orders, none⟩
      ⟨frames', layout, orders', none⟩ ∧ Does orders' frames' tasks := by
  generalize htasks : Task.leave location :: tasks = all at h
  induction h with
  | nil | lay => cases htasks
  | startRound index rest ih =>
    obtain ⟨frames', orders', hlater, hdoes⟩ := ih htasks
    exact ⟨frames', orders', .obey (Nat.zero_le _) rfl hlater, hdoes⟩
  | leaveBlock location rest =>
    cases htasks
    exact ⟨_, _, .here _, rest⟩
  | leaveCall location rest =>
    cases htasks
    exact ⟨_, _, .obey (Nat.zero_le _) rfl (.here _), rest⟩
  | leaveLoop location round rest =>
    cases htasks
    exact ⟨_, _, .obey (Nat.zero_le _) rfl (.here _), rest⟩

end Does

section Walks

variable {environment : Environment} {actions : List Action} {trace : List (Layout × Event)}
  {layout : Layout}

/-- The machine keeps up with the first walk. -/
theorem WalksThrough.exists_does {tasks : List Task}
    (h : WalksThrough environment Layout.empty (bodyTasks [] actions) trace layout tasks) :
    ∃ frames orders, ComesBy environment [] (.start actions) ⟨frames, layout, orders, none⟩ ∧
      Does orders frames tasks := by
  induction h with
  | here =>
    have hbody := (Does.nil []).body actions
    rw [List.append_nil, List.append_nil] at hbody
    exact ⟨[], layOrders actions, .here _, hbody⟩
  | @step trace layout next task more others event walk advanced ih =>
    obtain ⟨frames, orders, hway, hdoes⟩ := ih
    cases task with
    | leave location =>
      cases advanced
      obtain ⟨frames', orders', hleave, hothers⟩ := hdoes.comesBy_leave layout
      exact ⟨frames', orders', hway.trans hleave, hothers⟩
    | action calls action =>
      obtain ⟨rest, haction, hrest⟩ := hdoes.comesBy_action layout
      obtain ⟨frames', orders', hattempt, hmore⟩ := hrest.advance advanced
      refine ⟨frames', orders', hway.trans (haction.trans (.obey (Nat.zero_le _) rfl ?_)), hmore⟩
      simp only [FrameMachine.obey, Option.isSome_none, Bool.false_eq_true, if_false, hattempt]
      exact .here _

/-- Whenever the first walk comes to an action, the machine comes to it with the calls of the task
on its stack. -/
theorem WalksThrough.comesBy {calls : List MacroCall} {action : Action} {others : List Task}
    (h : WalksThrough environment Layout.empty (bodyTasks [] actions) trace layout
      (.action calls action :: others)) :
    ∃ rest, ComesBy environment [] (.start actions)
      ⟨calls, layout, .lay action :: rest, none⟩ := by
  obtain ⟨frames, orders, hway, hdoes⟩ := h.exists_does
  obtain ⟨rest, haction, -⟩ := hdoes.comesBy_action layout
  exact ⟨rest, hway.trans haction⟩

/-- A history before a complete run is the first part of a complete run. -/
theorem WalksThrough.firstWalk {start last : Layout} {tasks others : List Task}
    {tail : List (Layout × Event)} (h : WalksThrough environment start tasks trace layout others)
    (walk : FirstWalk environment layout others tail last) :
    FirstWalk environment start tasks (trace ++ tail) last := by
  induction h generalizing tail with
  | here => exact walk
  | step before advanced ih =>
    rw [List.append_assoc]
    exact ih (.step advanced walk)

end Walks

end Asm65816
