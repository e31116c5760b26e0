import Asm65816.Proofs.MacroScope

/-!
# The stack of macro calls

Laying out a program, done by a machine that keeps the macro calls on one stack and changes it in
place: a call is put on the stack before its body and taken off behind it, and a loop moves the
innermost call from round to round and gives it back its own round at the end. A failure does not
stop the machine at once. The orders that take calls off and give rounds back are still obeyed, and
all others are passed over.

The machine comes to an end with the outcome that laying out has, and every action leaves the stack
as it found it.
-/

namespace Asm65816

/-- What the machine is told to do. -/
inductive Order where
  | lay (action : Action)
  /-- Takes the innermost call off the stack. -/
  | closeCall
  /-- Moves the innermost call to the round of one of its further arguments. -/
  | startRound (index : Nat)
  /-- Gives the innermost call the round it had before a loop. -/
  | endRounds (round : Option (Nat × Expr))

/-- Whether an order is obeyed after a failure too. -/
def Order.unwinds : Order → Bool
  | closeCall | endRounds _ => true
  | lay _ | startRound _ => false

/-- The orders for a body. -/
def layOrders (body : List Action) : List Order := body.map Order.lay

/-- The orders for the rounds of a loop over the given further arguments. -/
def roundOrders (indices : List Nat) (body : List Action) : List Order :=
  indices.flatMap fun index => .startRound index :: layOrders body

/-- The state of the machine. -/
structure FrameMachine where
  /-- The macro calls that are being expanded, innermost first. -/
  frames : List MacroCall
  layout : Layout
  orders : List Order
  failure : Option Failure

namespace FrameMachine

/-- The machine before the first action of a program. -/
def start (actions : List Action) : FrameMachine := ⟨[], Layout.empty, layOrders actions, none⟩

/-- What the machine has come to. -/
def outcome (machine : FrameMachine) : Except Failure Layout :=
  match machine.failure with
  | some failure => .error failure
  | none => .ok machine.layout

/-- Lays out an action, or the first part of it; `orders` are left to be done behind it. -/
def attempt (environment : Environment) (frames : List MacroCall) (layout : Layout)
    (orders : List Order) : Action → Except Failure FrameMachine
  | .operation operation location => do
    let (_, size, layout) ←
      failingAt location (placeOperation environment frames location layout operation)
    let layout ← failingAt location (layout.occupy size)
    return ⟨frames, layout, orders, none⟩
  | .callMacro name operands location => do
    let (call, body) ← failingAt location (openCall environment frames name operands)
    return ⟨call :: frames, layout, layOrders body ++ .closeCall :: orders, none⟩
  | .conditional arms _ => do
    let body ← chosenBody environment frames layout.address arms
    return ⟨frames, layout, layOrders body ++ orders, none⟩
  | .argumentLoop body location =>
    match frames with
    | [] => .error ⟨.loopOutsideMacro, location⟩
    | call :: _ =>
      .ok ⟨frames, layout, roundOrders (List.range call.furtherArguments.length) body ++
        .endRounds call.round :: orders, none⟩

/-- Obeys an order; `orders` are left to be done behind it. -/
def obey (environment : Environment) (machine : FrameMachine) (orders : List Order) :
    Order → FrameMachine
  | .closeCall => { machine with frames := machine.frames.tail, orders := orders }
  | .endRounds round =>
    { machine with
      frames := machine.frames.modifyHead fun call => { call with round := round }
      orders := orders }
  | .startRound index =>
    if machine.failure.isSome then { machine with orders := orders }
    else
      { machine with
        frames := machine.frames.modifyHead fun call => call.inRound (some index)
        orders := orders }
  | .lay action =>
    if machine.failure.isSome then { machine with orders := orders }
    else match attempt environment machine.frames machine.layout orders action with
      | .ok next => next
      | .error failure => { machine with orders := orders, failure := some failure }

/-- Obeys the next order, if there is one. -/
def step (environment : Environment) (machine : FrameMachine) : FrameMachine :=
  match machine.orders with
  | [] => machine
  | order :: orders => machine.obey environment orders order

/-- The machine after a number of steps. -/
def run (environment : Environment) : Nat → FrameMachine → FrameMachine
  | 0, machine => machine
  | count + 1, machine => run environment count (machine.step environment)

end FrameMachine

/-- The machine goes on until nothing but `rest` is left to be done, which takes it to another
state. -/
inductive Returns (environment : Environment) (rest : List Order) :
    FrameMachine → FrameMachine → Prop where
  | done {machine : FrameMachine} (left : machine.orders = rest) :
      Returns environment rest machine machine
  | step {machine last : FrameMachine} (more : rest.length < machine.orders.length)
      (later : Returns environment rest (machine.step environment) last) :
      Returns environment rest machine last

section Returning

variable {environment : Environment} {rest : List Order} {machine middle last : FrameMachine}

theorem Returns.orders_eq (h : Returns environment rest machine last) : last.orders = rest := by
  induction h with
  | done left => exact left
  | step more later ih => exact ih

/-- There is one state in which the machine has nothing but `rest` left for the first time. -/
theorem Returns.unique {other : FrameMachine} (h : Returns environment rest machine last)
    (h' : Returns environment rest machine other) : other = last := by
  induction h with
  | done left =>
    cases h' with
    | done => rfl
    | step more =>
      rw [left] at more
      exact absurd more (Nat.lt_irrefl _)
  | step more later ih =>
    cases h' with
    | done left =>
      rw [left] at more
      exact absurd more (Nat.lt_irrefl _)
    | step more' later' => exact ih later'

/-- What stands in front of `rest` is done part by part. -/
theorem Returns.trans (orders : List Order)
    (h : Returns environment (orders ++ rest) machine middle)
    (h' : Returns environment rest middle last) : Returns environment rest machine last := by
  induction h with
  | done left => exact h'
  | step more later ih =>
    refine .step ?_ (ih h')
    rw [List.length_append] at more
    omega

/-- An order is obeyed in one step. -/
theorem Returns.obey {order : Order} {orders : List Order} (hle : rest.length ≤ orders.length)
    (horders : machine.orders = order :: orders)
    (h : Returns environment rest (machine.obey environment orders order) last) :
    Returns environment rest machine last := by
  refine .step ?_ ?_
  · rw [horders, List.length_cons]
    omega
  · rw [FrameMachine.step, horders]
    exact h

/-- After a failure everything is passed over that does not unwind the stack. -/
theorem Returns.skip (orders : List Order) (horders : ∀ order ∈ orders, order.unwinds = false)
    {frames : List MacroCall} {layout : Layout} {failure : Failure} :
    Returns environment rest ⟨frames, layout, orders ++ rest, some failure⟩
      ⟨frames, layout, rest, some failure⟩ := by
  induction orders with
  | nil => exact .done rfl
  | cons order orders ih =>
    have hrest := ih fun other hother => horders other (List.mem_cons_of_mem _ hother)
    refine .obey (by simp) rfl ?_
    cases order with
    | lay action => exact hrest
    | startRound index => exact hrest
    | closeCall => cases horders _ List.mem_cons_self
    | endRounds round => cases horders _ List.mem_cons_self

end Returning

theorem layOrders_not_unwinds (body : List Action) :
    ∀ order ∈ layOrders body, order.unwinds = false := by
  intro order horder
  obtain ⟨action, -, rfl⟩ := List.mem_map.mp horder
  rfl

theorem roundOrders_not_unwinds {indices : List Nat} {body : List Action} :
    ∀ order ∈ roundOrders indices body, order.unwinds = false := by
  intro order horder
  obtain ⟨index, -, hmem⟩ := List.mem_flatMap.mp horder
  rcases List.mem_cons.mp hmem with rfl | hbody
  · rfl
  · exact layOrders_not_unwinds body order hbody

/-! ## Bodies and the stack -/

/-- Whatever is left to be done behind them, the orders come to an outcome and leave the stack as
they found it. -/
def Concludes (environment : Environment) (frames : List MacroCall) (layout : Layout)
    (orders : List Order) (outcome : Except Failure Layout) : Prop :=
  ∀ rest, ∃ last, Returns environment rest ⟨frames, layout, orders ++ rest, none⟩ last ∧
    last.frames = frames ∧ last.outcome = outcome

/-- A machine that has come to a layout. -/
theorem FrameMachine.eq_of_outcome {machine : FrameMachine} {frames : List MacroCall}
    {orders : List Order} {layout : Layout} (hframes : machine.frames = frames)
    (horders : machine.orders = orders) (h : machine.outcome = .ok layout) :
    machine = ⟨frames, layout, orders, none⟩ := by
  obtain ⟨found, reached, left, failure⟩ := machine
  cases failure with
  | some failure => cases h
  | none =>
    cases hframes
    cases horders
    cases h
    rfl

/-- A machine that has come to a failure. -/
theorem FrameMachine.eq_of_failed {machine : FrameMachine} {frames : List MacroCall}
    {orders : List Order} {failure : Failure} (hframes : machine.frames = frames)
    (horders : machine.orders = orders) (h : machine.outcome = .error failure) :
    machine = ⟨frames, machine.layout, orders, some failure⟩ := by
  obtain ⟨found, reached, left, failed⟩ := machine
  cases failed with
  | some found =>
    cases hframes
    cases horders
    cases h
    rfl
  | none => cases h

section Concluding

variable {environment : Environment} {frames : List MacroCall} {layout : Layout}

/-- Orders that are done one part after the other. -/
theorem Concludes.append {first second : List Order} {outcome : Except Failure Layout}
    {later : Layout → Except Failure Layout}
    (hsecond : ∀ order ∈ second, order.unwinds = false)
    (h : Concludes environment frames layout first outcome)
    (h' : ∀ next, Concludes environment frames next second (later next)) :
    Concludes environment frames layout (first ++ second) (outcome >>= later) := by
  intro rest
  obtain ⟨middle, hmiddle, hframes, houtcome⟩ := h (second ++ rest)
  rw [← List.append_assoc] at hmiddle
  cases outcome with
  | error failure =>
    rw [middle.eq_of_failed hframes hmiddle.orders_eq houtcome] at hmiddle
    exact ⟨_, hmiddle.trans second (.skip second hsecond), rfl, rfl⟩
  | ok next =>
    rw [middle.eq_of_outcome hframes hmiddle.orders_eq houtcome] at hmiddle
    obtain ⟨last, hlast, hsame, hlater⟩ := h' next rest
    exact ⟨last, hmiddle.trans second hlast, hsame, hlater⟩

/-- An action that fails at once. -/
theorem Concludes.fail {action : Action} {failure : Failure}
    (h : ∀ orders, FrameMachine.attempt environment frames layout orders action =
      .error failure) :
    Concludes environment frames layout [.lay action] (.error failure) := by
  intro rest
  refine ⟨⟨frames, layout, rest, some failure⟩, .obey (Nat.le_refl _) rfl ?_, rfl, rfl⟩
  simp only [FrameMachine.obey, Option.isSome_none, Bool.false_eq_true, if_false, h rest]
  exact .done rfl

/-- An action goes on with what it leaves to be done. -/
theorem Concludes.lay {action : Action} {outcome : Except Failure Layout}
    (h : ∀ rest, ∃ next last,
      FrameMachine.attempt environment frames layout rest action = .ok next ∧
      Returns environment rest next last ∧ last.frames = frames ∧ last.outcome = outcome) :
    Concludes environment frames layout [.lay action] outcome := by
  intro rest
  obtain ⟨next, last, hnext, hlast, hsame, houtcome⟩ := h rest
  refine ⟨last, .obey (Nat.le_refl _) rfl ?_, hsame, houtcome⟩
  simp only [FrameMachine.obey, Option.isSome_none, Bool.false_eq_true, if_false, hnext]
  exact hlast

/-- A call whose body leaves the stack as it found it leaves it so as well. -/
theorem Concludes.call {name : String} {operands : List Expr} {location : Location}
    {call : MacroCall} {body : List Action} {outcome : Except Failure Layout}
    (hopen : openCall environment frames name operands = .ok (call, body))
    (hbody : Concludes environment (call :: frames) layout (layOrders body) outcome) :
    Concludes environment frames layout [.lay (.callMacro name operands location)] outcome := by
  refine .lay fun rest => ?_
  obtain ⟨middle, hmiddle, hframes, houtcome⟩ := hbody (.closeCall :: rest)
  refine ⟨_, { middle with frames := frames, orders := rest },
    bind_eq_ok.mpr ⟨(call, body), failingAt_eq_ok.mpr hopen, rfl⟩,
    hmiddle.trans [.closeCall] ?_, rfl, houtcome⟩
  -- The call is taken off the stack, whatever its body came to.
  refine .obey (Nat.le_refl _) hmiddle.orders_eq ?_
  rw [FrameMachine.obey, hframes, List.tail_cons]
  exact .done rfl

end Concluding

/-! ## The recursive layout -/

/-- Passing the layout on beside another value. -/
theorem map_snd_rewrap {α β : Type} (step : Except Failure (α × Layout)) (wrap : α → β) :
    Except.map Prod.snd (step >>= fun result => pure (wrap result.1, result.2)) =
      step.map Prod.snd := by
  cases step <;> rfl

/-- Laying out the arms of a block is laying out the chosen body. -/
theorem placeArms_eq (environment : Environment) (deeper : Option ActionPlacer)
    (calls : List MacroCall) (layout : Layout) (arms : List ConditionalArm) :
    placeArms environment deeper calls layout arms =
      chosenBody environment calls layout.address arms >>=
        placeActions environment deeper calls layout := by
  induction arms with
  | nil => rfl
  | cons arm rest ih =>
    obtain ⟨condition, body, location⟩ := arm
    simp only [placeArms, chosenBody, bind_assoc]
    refine bind_congr fun holds => ?_
    cases holds with
    | true => rfl
    | false => exact ih

/-- A way of laying out bodies inside `count` calls that the machine follows. -/
def ConcludesBodies (environment : Environment) (count : Nat) (place : ActionPlacer) : Prop :=
  ∀ calls layout body, Nested environment calls → calls.length = count →
    Concludes environment calls layout (layOrders body) ((place calls layout body).map Prod.snd)

/-- The rounds of a loop leave the innermost call in some round, and the stack is the same
otherwise. -/
theorem rounds_conclude {environment : Environment} {deeper : Option ActionPlacer} {count : Nat}
    {body : List Action} (hbody : ∀ calls layout, Nested environment calls →
      calls.length = count → Concludes environment calls layout (layOrders body)
        ((placeActions environment deeper calls layout body).map Prod.snd))
    {call : MacroCall} {outer : List MacroCall} (hnested : Nested environment (call :: outer))
    (hcount : (call :: outer).length = count) {rounds : List (Expr × Nat)}
    (hrounds : ∀ round ∈ rounds, call.furtherArguments[round.2]? = some round.1)
    (rest : List Order) (found : Option (Nat × Expr)) (before : List Step) (layout : Layout) :
    ∃ last reached, Returns environment rest
        ⟨{ call with round := found } :: outer, layout,
          roundOrders (rounds.map Prod.snd) body ++ rest, none⟩ last ∧
      last.frames = { call with round := reached } :: outer ∧
      last.outcome = Except.map Prod.snd (rounds.foldlM
        (fun (steps, layout) (value, index) => do
          let round := { call with round := some (index, value) }
          let (more, layout) ← placeActions environment deeper (round :: outer) layout body
          return (steps ++ more, layout))
        (before, layout)) := by
  induction rounds generalizing found before layout with
  | nil => exact ⟨_, found, .done rfl, rfl, rfl⟩
  | cons round others ih =>
    obtain ⟨value, index⟩ := round
    have hvalue : call.furtherArguments[index]? = some value := hrounds _ List.mem_cons_self
    have hothers : ∀ round ∈ others, call.furtherArguments[round.2]? = some round.1 :=
      fun round hround => hrounds round (List.mem_cons_of_mem _ hround)
    have horders : roundOrders (((value, index) :: others).map Prod.snd) body ++ rest =
        .startRound index :: (layOrders body ++
          (roundOrders (others.map Prod.snd) body ++ rest)) := by
      simp [roundOrders]
    have hround : MacroCall.inRound { call with round := found } (some index) =
        { call with round := some (index, value) } := MacroCall.inRound_of_further hvalue found
    obtain ⟨middle, hmiddle, hframes, houtcome⟩ :=
      hbody _ layout (hnested.round (some (index, value))) hcount
        (roundOrders (others.map Prod.snd) body ++ rest)
    -- The round begins with its argument and goes on with the body.
    have hstart {last : FrameMachine}
        (h : Returns environment rest
          ⟨{ call with round := some (index, value) } :: outer, layout, layOrders body ++
            (roundOrders (others.map Prod.snd) body ++ rest), none⟩ last) :
        Returns environment rest ⟨{ call with round := found } :: outer, layout,
          roundOrders (((value, index) :: others).map Prod.snd) body ++ rest, none⟩ last := by
      refine .obey (by simp only [List.length_append]; omega) horders ?_
      simp only [FrameMachine.obey, Option.isSome_none, Bool.false_eq_true, if_false,
        List.modifyHead_cons, hround]
      exact h
    simp only [List.foldlM_cons, bind_assoc, pure_bind]
    cases hplaced : placeActions environment deeper
        ({ call with round := some (index, value) } :: outer) layout body with
    | error failure =>
      rw [hplaced] at houtcome
      rw [middle.eq_of_failed hframes hmiddle.orders_eq houtcome] at hmiddle
      have hskip := hmiddle.trans _ (.skip _ roundOrders_not_unwinds)
      exact ⟨_, some (index, value), hstart hskip, rfl, rfl⟩
    | ok placed =>
      obtain ⟨more, next⟩ := placed
      rw [hplaced] at houtcome
      rw [middle.eq_of_outcome hframes hmiddle.orders_eq houtcome] at hmiddle
      obtain ⟨last, reached, hlast, hsame, hlater⟩ :=
        ih hothers (some (index, value)) (before ++ more) next
      exact ⟨last, reached, hstart (hmiddle.trans _ hlast), hsame, hlater⟩

section Layouts

variable {environment : Environment} {deeper : Option ActionPlacer} {count : Nat}

/-- A loop whose body leaves the stack as it found it gives the innermost call its round back. -/
theorem argumentLoop_conclude {body : List Action} (hbody : ∀ calls layout,
      Nested environment calls → calls.length = count → Concludes environment calls layout
        (layOrders body) ((placeActions environment deeper calls layout body).map Prod.snd))
    {call : MacroCall} {outer : List MacroCall} (hnested : Nested environment (call :: outer))
    (hcount : (call :: outer).length = count) (layout : Layout) (location : Location) :
    Concludes environment (call :: outer) layout [.lay (.argumentLoop body location)]
      ((placeAction environment deeper (call :: outer) layout
        (.argumentLoop body location)).map Prod.snd) := by
  refine .lay fun rest => ?_
  have hrounds : ∀ round ∈ call.furtherArguments.zipIdx,
      call.furtherArguments[round.2]? = some round.1 := by
    rintro ⟨value, index⟩ hround
    exact List.mem_zipIdx_iff_getElem?.mp hround
  obtain ⟨middle, reached, hmiddle, hframes, houtcome⟩ :=
    rounds_conclude hbody hnested hcount hrounds (.endRounds call.round :: rest) call.round []
      layout
  rw [List.zipIdx_map_snd] at hmiddle
  refine ⟨_, { middle with frames := call :: outer, orders := rest }, rfl, ?_, rfl, ?_⟩
  · rw [List.range_eq_range']
    refine hmiddle.trans [.endRounds call.round] ?_
    refine .obey (Nat.le_refl _) hmiddle.orders_eq ?_
    simp only [FrameMachine.obey, hframes, List.modifyHead_cons]
    exact .done rfl
  · refine Eq.trans houtcome ?_
    rw [placeAction]
    exact (map_snd_rewrap _ (Step.expansion none · location)).symm

mutual

/-- The machine follows the layout of an action and leaves the stack as it found it. -/
theorem placeAction_conclude
    (hdeeper : ∀ place, deeper = some place → ConcludesBodies environment (count + 1) place)
    (hbottom : deeper = none → environment.macros.length ≤ count) :
    ∀ (action : Action) (calls : List MacroCall) (layout : Layout),
      Nested environment calls → calls.length = count →
        Concludes environment calls layout [.lay action]
          ((placeAction environment deeper calls layout action).map Prod.snd)
  | .operation operation location, calls, layout, hnested, hcount => by
    cases hplaced : failingAt location
        (placeOperation environment calls location layout operation) with
    | error failure =>
      simp only [placeAction, hplaced]
      refine .fail fun orders => ?_
      simp only [FrameMachine.attempt, hplaced]
      rfl
    | ok placed =>
      obtain ⟨operation', size, mid⟩ := placed
      cases hoccupied : failingAt location (mid.occupy size) with
      | error failure =>
        simp only [placeAction, hplaced, ok_bind, hoccupied]
        refine .fail fun orders => ?_
        simp only [FrameMachine.attempt, hplaced, ok_bind, hoccupied]
        rfl
      | ok next =>
        simp only [placeAction, hplaced, ok_bind, hoccupied]
        refine .lay fun rest =>
          ⟨⟨calls, next, rest, none⟩, ⟨calls, next, rest, none⟩, ?_, .done rfl, rfl, rfl⟩
        simp only [FrameMachine.attempt, hplaced, ok_bind, hoccupied]
        rfl
  | .callMacro name operands location, calls, layout, hnested, hcount => by
    cases hopened : openCall environment calls name operands with
    | error fault =>
      simp only [placeAction, hopened]
      refine .fail fun orders => ?_
      simp only [FrameMachine.attempt, hopened]
      rfl
    | ok opened =>
      obtain ⟨call, body⟩ := opened
      have hinside := hnested.enter hopened
      cases hplace : deeper with
      | none =>
        -- Every macro would be open, and one more was opened.
        have hlength := hinside.length_le
        have hroom := hbottom hplace
        simp only [List.length_cons] at hlength
        omega
      | some place =>
        have hlength : (call :: calls).length = count + 1 := congrArg (· + 1) hcount
        have hbody := hdeeper place hplace (call :: calls) layout body hinside hlength
        have hresult : (placeAction environment (some place) calls layout
            (.callMacro name operands location)).map Prod.snd =
              (place (call :: calls) layout body).map Prod.snd := by
          rw [placeAction, failingAt_eq_ok.mpr hopened, ok_bind]
          exact map_snd_rewrap _ (Step.expansion (some name) · location)
        rw [hresult]
        exact .call hopened hbody
  | .conditional arms location, calls, layout, hnested, hcount => by
    have hresult : (placeAction environment deeper calls layout
        (.conditional arms location)).map Prod.snd =
          (placeArms environment deeper calls layout arms).map Prod.snd := by
      rw [placeAction]
      exact map_snd_rewrap _ (Step.expansion none · location)
    rw [hresult, placeArms_eq]
    cases hchosen : chosenBody environment calls layout.address arms with
    | error failure =>
      refine .fail fun orders => ?_
      simp only [FrameMachine.attempt, hchosen]
      rfl
    | ok body =>
      have hbody := placeArms_conclude hdeeper hbottom arms calls layout body hnested hcount hchosen
      refine .lay fun rest => ?_
      obtain ⟨last, hlast, hsame, houtcome⟩ := hbody rest
      exact ⟨_, last, bind_eq_ok.mpr ⟨body, hchosen, rfl⟩, hlast, hsame, houtcome⟩
  | .argumentLoop body location, [], layout, hnested, hcount => .fail fun orders => rfl
  | .argumentLoop body location, call :: outer, layout, hnested, hcount =>
    argumentLoop_conclude (placeActions_conclude hdeeper hbottom body) hnested hcount layout
      location

/-- The machine follows the layout of actions and leaves the stack as it found it. -/
theorem placeActions_conclude
    (hdeeper : ∀ place, deeper = some place → ConcludesBodies environment (count + 1) place)
    (hbottom : deeper = none → environment.macros.length ≤ count) :
    ∀ (actions : List Action) (calls : List MacroCall) (layout : Layout),
      Nested environment calls → calls.length = count →
        Concludes environment calls layout (layOrders actions)
          ((placeActions environment deeper calls layout actions).map Prod.snd)
  | [], calls, layout, hnested, hcount => fun rest => ⟨_, .done rfl, rfl, rfl⟩
  | action :: rest, calls, layout, hnested, hcount => by
    have hfirst := placeAction_conclude hdeeper hbottom action calls layout hnested hcount
    have hrest next := placeActions_conclude hdeeper hbottom rest calls next hnested hcount
    have hresult : (placeActions environment deeper calls layout (action :: rest)).map Prod.snd =
        (placeAction environment deeper calls layout action).map Prod.snd >>= fun next =>
          (placeActions environment deeper calls next rest).map Prod.snd := by
      rw [bind_map, placeActions, map_bind]
      exact bind_congr fun first => map_snd_rewrap _ _
    rw [hresult]
    exact hfirst.append (layOrders_not_unwinds rest) hrest

/-- The machine follows the layout of the chosen body and leaves the stack as it found it. -/
theorem placeArms_conclude
    (hdeeper : ∀ place, deeper = some place → ConcludesBodies environment (count + 1) place)
    (hbottom : deeper = none → environment.macros.length ≤ count) :
    ∀ (arms : List ConditionalArm) (calls : List MacroCall) (layout : Layout)
      (body : List Action), Nested environment calls → calls.length = count →
        chosenBody environment calls layout.address arms = .ok body →
          Concludes environment calls layout (layOrders body)
            ((placeActions environment deeper calls layout body).map Prod.snd)
  | [], calls, layout, body, hnested, hcount, h => by
    cases h
    exact fun rest => ⟨_, .done rfl, rfl, rfl⟩
  | .mk condition found location :: rest, calls, layout, body, hnested, hcount, h => by
    obtain ⟨holds, -, h⟩ := bind_eq_ok.mp h
    cases holds with
    | true =>
      cases h
      exact placeActions_conclude hdeeper hbottom found calls layout hnested hcount
    | false =>
      exact placeArms_conclude hdeeper hbottom rest calls layout body hnested hcount h

end

end Layouts

/-- The machine follows layouts with room for all macros. -/
theorem placeTo_conclude (environment : Environment) (depth count : Nat)
    (hroom : environment.macros.length ≤ depth + count) :
    ConcludesBodies environment count (placeTo environment depth) := by
  induction depth generalizing count with
  | zero =>
    intro calls layout body hnested hcount
    refine placeActions_conclude (fun place hplace => ?_) (fun _ => ?_) body calls layout hnested
      hcount
    · cases hplace
    · omega
  | succ depth ih =>
    intro calls layout body hnested hcount
    refine placeActions_conclude (fun place hplace => ?_) (fun hnone => ?_) body calls layout
      hnested hcount
    · cases hplace
      exact ih (count + 1) (by omega)
    · cases hnone

/-! ## The names on the stack -/

section Names

variable {environment : Environment}

theorem Nested.tail {calls : List MacroCall} (h : Nested environment calls) :
    Nested environment calls.tail := by
  cases calls with
  | nil => exact h
  | cons call outer =>
    refine ⟨(List.nodup_cons.mp h.distinct).2, fun other hother => ?_⟩
    exact h.defined other (List.mem_cons_of_mem _ hother)

/-- Changing the round of the innermost call keeps the names. -/
theorem Nested.modifyRound {calls : List MacroCall} {round : MacroCall → Option (Nat × Expr)}
    (h : Nested environment calls) :
    Nested environment (calls.modifyHead fun call => { call with round := round call }) := by
  cases calls with
  | nil => exact h
  | cons call outer => exact h.round (round call)

/-- An action puts a call on the stack only when its macro is not being expanded. -/
theorem FrameMachine.attempt_nested {frames : List MacroCall} {layout : Layout}
    {orders : List Order} {action : Action} {next : FrameMachine}
    (h : Nested environment frames)
    (hnext : attempt environment frames layout orders action = .ok next) :
    Nested environment next.frames := by
  cases action with
  | operation operation location =>
    obtain ⟨placed, -, hnext⟩ := bind_eq_ok.mp hnext
    obtain ⟨occupied, -, hnext⟩ := bind_eq_ok.mp hnext
    cases hnext
    exact h
  | callMacro name operands location =>
    obtain ⟨⟨call, body⟩, hopened, hnext⟩ := bind_eq_ok.mp hnext
    cases hnext
    exact h.enter (failingAt_eq_ok.mp hopened)
  | conditional arms location =>
    obtain ⟨body, -, hnext⟩ := bind_eq_ok.mp hnext
    cases hnext
    exact h
  | argumentLoop body location =>
    cases frames with
    | nil => cases hnext
    | cons call outer =>
      cases hnext
      exact h

/-- One step keeps the names on the stack different. -/
theorem FrameMachine.step_nested {machine : FrameMachine} (h : Nested environment machine.frames) :
    Nested environment (machine.step environment).frames := by
  unfold step
  split
  case h_1 => exact h
  case h_2 order orders horders =>
    cases order with
    | closeCall => exact h.tail
    | endRounds round => exact h.modifyRound
    | startRound index =>
      simp only [obey]
      split
      · exact h
      · exact h.modifyRound
    | lay action =>
      simp only [obey]
      split
      · exact h
      · split
        case h_1 next hnext => exact attempt_nested h hnext
        case h_2 => exact h

/-- The names on the stack are different at all times. -/
theorem FrameMachine.run_nested {machine : FrameMachine} (h : Nested environment machine.frames)
    (count : Nat) : Nested environment (machine.run environment count).frames := by
  induction count generalizing machine with
  | zero => exact h
  | succ count ih => exact ih (step_nested h)

end Names

/-! ## Whole programs -/

/-- Whenever the machine comes to an action, it gets behind it with the same stack. -/
theorem FrameMachine.returns_of_lay {environment : Environment} {machine : FrameMachine}
    {action : Action} {rest : List Order} (hnested : Nested environment machine.frames)
    (horders : machine.orders = .lay action :: rest) :
    ∃ last, Returns environment rest machine last ∧ last.frames = machine.frames ∧
      (machine.failure = none → last.outcome = (placeTo environment
        environment.macros.length machine.frames machine.layout [action]).map Prod.snd) := by
  obtain ⟨frames, layout, orders, failure⟩ := machine
  subst horders
  cases failure with
  | some failure =>
    refine ⟨_, Returns.skip [.lay action] ?_, rfl, fun hnone => by cases hnone⟩
    exact layOrders_not_unwinds [action]
  | none =>
    have hroom : environment.macros.length ≤ environment.macros.length + frames.length := by omega
    obtain ⟨last, hlast, hframes, houtcome⟩ :=
      placeTo_conclude environment _ _ hroom frames layout [action] hnested rfl rest
    exact ⟨last, hlast, hframes, fun _ => houtcome⟩

/-- Macro expansion comes to an end and leaves the stack of calls as it found it. The machine has
done all actions of a program after finitely many steps, with an empty stack and the outcome that
laying them out has, whatever depth of calls is provided for beyond the number of macros. At all
times the calls on its stack have different names, so that they are never more than the macros; and
whenever it comes to an action, it gets behind that action, with success or with a failure, and has
the same calls on the stack, each of them in the same round of a loop. -/
theorem macro_frames_restored (environment : Environment) (actions : List Action) :
    (∃ last, (∀ other, Returns environment [] (.start actions) other ↔ other = last) ∧
      last.frames = [] ∧
      ∀ depth, environment.macros.length ≤ depth →
        last.outcome = (placeTo environment depth [] Layout.empty actions).map Prod.snd) ∧
    ∀ count machine, (FrameMachine.start actions).run environment count = machine →
      (machine.frames.map MacroCall.name).Nodup ∧
      machine.frames.length ≤ environment.macros.length ∧
      ∀ action rest, machine.orders = .lay action :: rest →
        ∃ last, (∀ other, Returns environment rest machine other ↔ other = last) ∧
          last.frames = machine.frames ∧
          (machine.failure = none → last.outcome = (placeTo environment
            environment.macros.length machine.frames machine.layout [action]).map Prod.snd) := by
  constructor
  · have hconcludes depth (hdepth : environment.macros.length ≤ depth) :=
      placeTo_conclude environment depth 0 hdepth [] Layout.empty actions .nil rfl []
    simp only [List.append_nil] at hconcludes
    obtain ⟨last, hlast, hframes, -⟩ := hconcludes _ (Nat.le_refl _)
    refine ⟨last, fun other => ⟨hlast.unique, fun h => h ▸ hlast⟩, hframes, fun depth hdepth => ?_⟩
    obtain ⟨other, hother, -, houtcome⟩ := hconcludes depth hdepth
    rwa [hlast.unique hother] at houtcome
  · rintro count machine rfl
    have hnested : Nested environment
        ((FrameMachine.start actions).run environment count).frames :=
      FrameMachine.run_nested .nil count
    refine ⟨hnested.distinct, hnested.length_le, fun action rest horders => ?_⟩
    obtain ⟨last, hlast, hframes, houtcome⟩ := FrameMachine.returns_of_lay hnested horders
    exact ⟨last, fun other => ⟨hlast.unique, fun h => h ▸ hlast⟩, hframes, houtcome⟩

/-- The macro `self` calls itself in the round of a loop over `x`, which fails. The stack is left
with the call in its round. -/
theorem macro_frames_restored_failing :
    ∃ environment actions machine rest last,
      environment.macros =
        [("self", ⟨[], true, [.argumentLoop [.callMacro "self" [] default] default]⟩)] ∧
      actions = [.callMacro "self" [.name ⟨"x", false⟩] default] ∧
      (FrameMachine.start actions).run environment 3 = machine ∧
      machine.orders = .lay (.callMacro "self" [] default) :: rest ∧
      machine.frames.map MacroCall.round = [some (0, .name ⟨"x", false⟩)] ∧
      Returns environment rest machine last ∧ last.frames = machine.frames ∧
      last.outcome = .error ⟨.macroRecursion "self", default⟩ := by
  let environment : Environment :=
    ⟨[("self", ⟨[], true, [.argumentLoop [.callMacro "self" [] default] default]⟩)], [],
      ⟨.ofTable [], []⟩⟩
  let actions : List Action := [.callMacro "self" [.name ⟨"x", false⟩] default]
  obtain ⟨-, -, hlays⟩ := (macro_frames_restored environment actions).2 3 _ rfl
  obtain ⟨last, hlast, hframes, houtcome⟩ := hlays _ _ rfl
  exact ⟨environment, actions, _, _, last, rfl, rfl, rfl, rfl, rfl, (hlast last).mpr rfl, hframes,
    houtcome rfl⟩

end Asm65816
