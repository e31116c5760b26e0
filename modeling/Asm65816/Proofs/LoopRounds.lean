import Asm65816.Proofs.StackWalk

/-!
# The rounds of a loop

A loop lays its body out once for every further argument of the innermost macro call, in order. The
round stands in the frame of the call, where inner loops overwrite it. It is back whenever only
actions of the round are left to be done: what is pushed in front of them always takes its calls off
the stack and gives the round back. The copies of the body are emitted one after the other.
-/

namespace Asm65816

/-! ## What orders leave of the stack -/

/-- Orders that take the stack back to `base`. A round is only started where it makes no difference
for the rest of the orders, which give the call another one. -/
inductive Unwinds (base : List MacroCall) : List Order → List MacroCall → Prop where
  | done : Unwinds base [] base
  | lay {orders : List Order} {frames : List MacroCall} (action : Action)
      (rest : Unwinds base orders frames) : Unwinds base (.lay action :: orders) frames
  | closeCall {orders : List Order} {frames : List MacroCall}
      (rest : Unwinds base orders frames.tail) : Unwinds base (.closeCall :: orders) frames
  | endRounds {orders : List Order} {frames : List MacroCall} (round : Option (Nat × Expr))
      (rest : Unwinds base orders (frames.modifyHead fun call => { call with round := round })) :
      Unwinds base (.endRounds round :: orders) frames
  | startRound {orders : List Order} {frames : List MacroCall} (index : Nat)
      (rest : ∀ found : MacroCall → Option (Nat × Expr),
        Unwinds base orders (frames.modifyHead fun call => { call with round := found call })) :
      Unwinds base (.startRound index :: orders) frames

namespace Unwinds

variable {environment : Environment} {base frames : List MacroCall} {orders : List Order}

theorem body (h : Unwinds base orders frames) (actions : List Action) :
    Unwinds base (layOrders actions ++ orders) frames := by
  induction actions with
  | nil => exact h
  | cons action rest ih => exact .lay action ih

/-- Rounds may be done in front of what gives the call its round back. -/
theorem rounds {call : MacroCall} {outer : List MacroCall}
    (h : ∀ found, Unwinds base orders ({ call with round := found } :: outer))
    (indices : List Nat) (actions : List Action) (found : Option (Nat × Expr)) :
    Unwinds base (roundOrders indices actions ++ orders)
      ({ call with round := found } :: outer) := by
  induction indices generalizing found with
  | nil => exact h found
  | cons index rest ih =>
    simp only [roundOrders, List.flatMap_cons, List.cons_append, List.append_assoc]
    exact .startRound index fun found => (ih _).body actions

/-- Actions alone do not change the stack. -/
theorem eq_of_actions {actions : List Action} (h : Unwinds base (layOrders actions) frames) :
    frames = base := by
  induction actions with
  | nil =>
    cases h
    rfl
  | cons action rest ih =>
    cases h with
    | lay _ hrest => exact ih hrest

/-- An action is replaced by orders that take the stack back as well. -/
theorem attempt {layout : Layout} {left : List Order} {action : Action} {next : FrameMachine}
    (h : Unwinds base orders frames)
    (hnext : FrameMachine.attempt environment frames layout (orders ++ left) action = .ok next) :
    ∃ orders', next.orders = orders' ++ left ∧ Unwinds base orders' next.frames := by
  cases action with
  | operation operation location =>
    obtain ⟨placed, -, hnext⟩ := bind_eq_ok.mp hnext
    obtain ⟨occupied, -, hnext⟩ := bind_eq_ok.mp hnext
    cases hnext
    exact ⟨orders, rfl, h⟩
  | callMacro name operands location =>
    obtain ⟨⟨call, body⟩, -, hnext⟩ := bind_eq_ok.mp hnext
    cases hnext
    refine ⟨layOrders body ++ .closeCall :: orders, ?_, Unwinds.body (.closeCall h) body⟩
    rw [List.append_assoc, List.cons_append]
  | conditional arms location =>
    obtain ⟨body, -, hnext⟩ := bind_eq_ok.mp hnext
    cases hnext
    exact ⟨layOrders body ++ orders, (List.append_assoc _ _ _).symm, h.body body⟩
  | argumentLoop body location =>
    cases frames with
    | nil => cases hnext
    | cons call outer =>
      cases hnext
      have hrounds := rounds (fun found => .endRounds call.round h)
        (List.range call.furtherArguments.length) body call.round
      refine ⟨_, ?_, hrounds⟩
      rw [List.append_assoc, List.cons_append]

/-- A step leaves orders that take the stack back as well. -/
theorem step {machine : FrameMachine} {order : Order} {left : List Order}
    (h : Unwinds base (order :: orders) machine.frames)
    (horders : machine.orders = order :: (orders ++ left)) :
    ∃ orders', (machine.step environment).orders = orders' ++ left ∧
      Unwinds base orders' (machine.step environment).frames := by
  rw [FrameMachine.step, horders]
  cases h with
  | closeCall rest => exact ⟨orders, rfl, rest⟩
  | endRounds round rest => exact ⟨orders, rfl, rest⟩
  | startRound index rest =>
    have hsame : machine.frames.modifyHead (fun call => { call with round := call.round }) =
        machine.frames := by
      cases machine.frames <;> rfl
    simp only [FrameMachine.obey]
    split
    · exact ⟨orders, rfl, hsame ▸ rest MacroCall.round⟩
    · exact ⟨orders, rfl, rest _⟩
  | lay action rest =>
    simp only [FrameMachine.obey]
    split
    · exact ⟨orders, rfl, rest⟩
    · split
      case h_1 next hnext => exact rest.attempt hnext
      case h_2 => exact ⟨orders, rfl, rest⟩

/-- What is in front of `left` takes the stack back at all times. -/
theorem comesBy {left : List Order} {machine later : FrameMachine}
    (h : Unwinds base orders machine.frames) (horders : machine.orders = orders ++ left)
    (hway : ComesBy environment left machine later) :
    ∃ orders', later.orders = orders' ++ left ∧ Unwinds base orders' later.frames := by
  induction hway generalizing orders with
  | here machine => exact ⟨orders, horders, h⟩
  | step more _ ih =>
    cases orders with
    | nil =>
      rw [horders] at more
      exact absurd more (Nat.lt_irrefl _)
    | cons order orders =>
      obtain ⟨orders', horders', hnext⟩ := h.step horders
      exact ih hnext horders'

end Unwinds

/-- Whenever only actions are left to be done of a body, the stack is that of its beginning. -/
theorem ComesBy.frames_eq {environment : Environment} {frames : List MacroCall} {layout : Layout}
    {body todo : List Action} {left : List Order} {later : FrameMachine}
    (h : ComesBy environment left ⟨frames, layout, layOrders body ++ left, none⟩ later)
    (horders : later.orders = layOrders todo ++ left) : later.frames = frames := by
  have hbody : Unwinds frames (layOrders body) frames := by
    have hdone := (Unwinds.done : Unwinds frames [] frames).body body
    rwa [List.append_nil] at hdone
  obtain ⟨orders, hlater, hunwinds⟩ := hbody.comesBy rfl h
  obtain rfl := List.append_cancel_right (hlater.symm.trans horders)
  exact hunwinds.eq_of_actions

/-! ## Rounds -/

/-- What is left to be done behind a round: the rounds after it, and then the call gets the round
back that it had before the loop. -/
def behindRound (call : MacroCall) (body : List Action) (rest : List Order) (index : Nat) :
    List Order :=
  roundOrders (List.range' (index + 1) (call.furtherArguments.length - (index + 1))) body ++
    .endRounds call.round :: rest

/-- The machine at the beginning of a round, with the round in the frame of the call. -/
def roundMachine (call : MacroCall) (outer : List MacroCall) (body : List Action)
    (rest : List Order) (index : Nat) (layout : Layout) : FrameMachine :=
  ⟨call.inRound (some index) :: outer, layout, layOrders body ++ behindRound call body rest index,
    none⟩

/-- A round that the machine comes to from a loop. In it `\i` is the index of the round and `\v`
the argument behind as many others as there are parameters and rounds before it, and this is so
again whenever only actions of the round are left to be done. -/
structure VisitsRound (environment : Environment) (call : MacroCall) (outer : List MacroCall)
    (body : List Action) (rest : List Order) (loop : FrameMachine) (index : Nat) (layout : Layout) :
    Prop where
  arrives : ComesBy environment rest loop (roundMachine call outer body rest index layout)
  keeps : ∀ todo later,
    ComesBy environment (behindRound call body rest index)
      (roundMachine call outer body rest index layout) later →
    later.orders = layOrders todo ++ behindRound call body rest index →
      later.frames = call.inRound (some index) :: outer
  names : ∃ value, call.arguments[call.parameters.length + index]? = some value ∧ ∀ long,
    bindArguments (call.inRound (some index) :: outer) (.name ⟨"\\i", long⟩) =
      .ok (.bound ⟨"\\i", long⟩ (.number (.ofInt index))) ∧
    bindArguments (call.inRound (some index) :: outer) (.name ⟨"\\v", long⟩) =
      .ok (.bound ⟨"\\v", long⟩ value)

/-- A round that lays out a copy of the body, and that the machine comes behind. -/
structure LaysCopy (environment : Environment) (call : MacroCall) (outer : List MacroCall)
    (body : List Action) (rest : List Order) (loop : FrameMachine) (index : Nat)
    (before after : Layout) (copy : List Step) : Prop
    extends VisitsRound environment call outer body rest loop index before where
  placed : placeTo environment environment.macros.length (call.inRound (some index) :: outer) before
    body = .ok (copy, after)
  leaves : Returns environment (behindRound call body rest index)
    (roundMachine call outer body rest index before)
    ⟨call.inRound (some index) :: outer, after, behindRound call body rest index, none⟩

section Rounds

variable {environment : Environment} {call : MacroCall} {outer : List MacroCall}
  {body : List Action} {rest : List Order} {loop : FrameMachine} {index : Nat} {layout : Layout}

/-- The machine visits what it comes to. -/
theorem ComesBy.visits {value : Expr} (hvariadic : call.variadic = true)
    (hvalue : call.furtherArguments[index]? = some value)
    (h : ComesBy environment rest loop (roundMachine call outer body rest index layout)) :
    VisitsRound environment call outer body rest loop index layout where
  arrives := h
  keeps := fun _ _ hway horders => hway.frames_eq horders
  names := by
    have hround : call.inRound (some index) = { call with round := some (index, value) } :=
      MacroCall.inRound_of_further hvalue call.round
    refine ⟨value, ?_, fun long => ⟨?_, ?_⟩⟩
    · rwa [MacroCall.furtherArguments, List.getElem?_drop] at hvalue
    · rw [hround]
      simp [bindArguments, Expr.bindNames, MacroCall.argument, hvariadic]
      rfl
    · rw [hround]
      simp [bindArguments, Expr.bindNames, MacroCall.argument, hvariadic]
      rfl

/-- The steps of rounds one after the other. -/
def layRounds (environment : Environment) (call : MacroCall) (outer : List MacroCall)
    (body : List Action) (rounds : List (Expr × Nat)) (start : List Step × Layout) :
    Except Failure (List Step × Layout) :=
  rounds.foldlM (fun (steps, layout) (value, index) => do
    let round := { call with round := some (index, value) }
    let (more, layout) ←
      placeTo environment environment.macros.length (round :: outer) layout body
    return (steps ++ more, layout)) start

/-- The first round is laid out, and the others behind it. -/
theorem layRounds_cons {value : Expr} (h : call.furtherArguments[index]? = some value)
    (others : List Expr) (steps : List Step) :
    layRounds environment call outer body ((value :: others).zipIdx index) (steps, layout) =
      placeTo environment environment.macros.length (call.inRound (some index) :: outer) layout
        body >>= fun placed => layRounds environment call outer body (others.zipIdx (index + 1))
          (steps ++ placed.1, placed.2) := by
  have hround : call.inRound (some index) = { call with round := some (index, value) } :=
    MacroCall.inRound_of_further h call.round
  simp only [layRounds, List.zipIdx_cons, List.foldlM_cons, bind_assoc, pure_bind, hround]

/-- A loop is laid out as its rounds. -/
theorem placeTo_argumentLoop (environment : Environment) (call : MacroCall)
    (outer : List MacroCall) (layout : Layout) (body : List Action) (location : Location) :
    placeTo environment environment.macros.length (call :: outer) layout
        [.argumentLoop body location] =
      layRounds environment call outer body call.furtherArguments.zipIdx ([], layout) >>=
        fun laid => .ok ([.expansion none laid.1 location], laid.2) := by
  have hplace : ∃ deeper, placeTo environment environment.macros.length =
      placeActions environment deeper := by
    cases environment.macros.length with
    | zero => exact ⟨_, rfl⟩
    | succ depth => exact ⟨_, rfl⟩
  obtain ⟨deeper, hplace⟩ := hplace
  simp only [layRounds, hplace, placeActions, placeAction, bind_assoc]
  rfl

/-- All rounds from a given one on have laid out their copies of the body, and the machine comes
behind the last one. -/
structure RoundsDone (environment : Environment) (call : MacroCall) (outer : List MacroCall)
    (body : List Action) (rest : List Order) (loop : FrameMachine) (first : Nat)
    (values : List Expr) (copies : List (List Step)) (layouts : Nat → Layout) : Prop where
  length : copies.length = values.length
  laid : ∀ steps, layRounds environment call outer body (values.zipIdx first) (steps, layouts 0) =
    .ok (steps ++ copies.flatten, layouts copies.length)
  arrives : ∃ found, ComesBy environment rest loop
    ⟨{ call with round := found } :: outer, layouts copies.length, .endRounds call.round :: rest,
      none⟩

/-- Behind some copies from a given round on, the next round fails. -/
structure RoundFails (environment : Environment) (call : MacroCall) (outer : List MacroCall)
    (body : List Action) (rest : List Order) (loop : FrameMachine) (first : Nat)
    (values : List Expr) (copies : List (List Step)) (layouts : Nat → Layout) (failure : Failure) :
    Prop where
  length : copies.length < values.length
  visits : VisitsRound environment call outer body rest loop (first + copies.length)
    (layouts copies.length)
  failed : placeTo environment environment.macros.length
    (call.inRound (some (first + copies.length)) :: outer) (layouts copies.length) body =
      .error failure
  laid : ∀ steps, layRounds environment call outer body (values.zipIdx first) (steps, layouts 0) =
    .error failure

/-- A layout in front of those that come later. -/
def Layout.before (layout : Layout) (later : Nat → Layout) : Nat → Layout
  | 0 => layout
  | position + 1 => later position

section Others

variable {value : Expr} {others : List Expr} {copy : List Step} {copies : List (List Step)}
  {layouts : Nat → Layout}

/-- Rounds that are all done, with one more in front of them. -/
theorem RoundsDone.behind (hvalue : call.furtherArguments[index]? = some value)
    (hcopy : LaysCopy environment call outer body rest loop index layout (layouts 0) copy)
    (h : RoundsDone environment call outer body rest loop (index + 1) others copies layouts) :
    RoundsDone environment call outer body rest loop index (value :: others) (copy :: copies)
      (layout.before layouts) where
  length := congrArg (· + 1) h.length
  laid := fun steps => by
    have hlaid := h.laid (steps ++ copy)
    rw [List.append_assoc, ← List.flatten_cons] at hlaid
    rw [Layout.before, layRounds_cons hvalue, hcopy.placed]
    exact hlaid
  arrives := h.arrives

/-- Rounds up to one that fails, with one more in front of them. -/
theorem RoundFails.behind {failure : Failure} (hvalue : call.furtherArguments[index]? = some value)
    (hcopy : LaysCopy environment call outer body rest loop index layout (layouts 0) copy)
    (h : RoundFails environment call outer body rest loop (index + 1) others copies layouts
      failure) :
    RoundFails environment call outer body rest loop index (value :: others) (copy :: copies)
      (layout.before layouts) failure := by
  have hshift : index + 1 + copies.length = index + (copy :: copies).length := by
    rw [List.length_cons]
    omega
  refine ⟨Nat.succ_lt_succ h.length, hshift ▸ h.visits, hshift ▸ h.failed, fun steps => ?_⟩
  rw [Layout.before, layRounds_cons hvalue, hcopy.placed]
  exact h.laid (steps ++ copy)

/-- What is behind a round are the rounds at the arguments behind its own. -/
theorem behindRound_eq (h : call.furtherArguments.drop (index + 1) = others) :
    behindRound call body rest index =
      roundOrders (List.range' (index + 1) others.length) body ++
        .endRounds call.round :: rest := by
  rw [behindRound, ← h, List.length_drop]

/-- The machine starts a round. -/
theorem ComesBy.startRound {found : Option (Nat × Expr)}
    (h : call.furtherArguments.drop (index + 1) = others)
    (hway : ComesBy environment rest loop ⟨{ call with round := found } :: outer, layout,
      roundOrders (List.range' index (value :: others).length) body ++
        .endRounds call.round :: rest, none⟩) :
    ComesBy environment rest loop (roundMachine call outer body rest index layout) := by
  have horders : roundOrders (List.range' index (value :: others).length) body ++
      .endRounds call.round :: rest =
        .startRound index :: (layOrders body ++ behindRound call body rest index) := by
    simp [roundOrders, List.range'_succ, behindRound_eq h]
  rw [horders] at hway
  refine hway.trans (.obey ?_ rfl (.here _))
  simp only [behindRound, List.length_append, List.length_cons]
  omega

/-- The machine comes behind a round that lays out a copy. -/
theorem LaysCopy.comesBy {after : Layout}
    (h : LaysCopy environment call outer body rest loop index layout after copy) :
    ComesBy environment rest loop
      ⟨call.inRound (some index) :: outer, after, behindRound call body rest index, none⟩ := by
  refine h.arrives.trans (h.leaves.comesBy.mono ?_)
  simp only [behindRound, List.length_append, List.length_cons]
  omega

end Others

/-- The machine comes behind a round with the outcome of laying it out. -/
theorem returns_roundMachine (hnested : Nested environment (call :: outer)) (body : List Action)
    (rest : List Order) (index : Nat) (layout : Layout) :
    ∃ last, Returns environment (behindRound call body rest index)
      (roundMachine call outer body rest index layout) last ∧
      last.frames = call.inRound (some index) :: outer ∧
      last.outcome = (placeTo environment environment.macros.length
        (call.inRound (some index) :: outer) layout body).map Prod.snd :=
  placeTo_conclude environment _ _ (Nat.le_add_right _ _) _ layout body (hnested.round _) rfl _

/-- The rounds of a loop from a given one on. -/
theorem exists_rounds (hvariadic : call.variadic = true)
    (hnested : Nested environment (call :: outer)) (values : List Expr) (first : Nat)
    (hvalues : call.furtherArguments.drop first = values) (found : Option (Nat × Expr))
    (layout : Layout)
    (hway : ComesBy environment rest loop ⟨{ call with round := found } :: outer, layout,
      roundOrders (List.range' first values.length) body ++ .endRounds call.round :: rest, none⟩) :
    ∃ copies layouts, layouts 0 = layout ∧
      (∀ position copy, copies[position]? = some copy →
        LaysCopy environment call outer body rest loop (first + position) (layouts position)
          (layouts (position + 1)) copy) ∧
      (RoundsDone environment call outer body rest loop first values copies layouts ∨
        ∃ failure, RoundFails environment call outer body rest loop first values copies layouts
          failure) := by
  induction values generalizing first found layout with
  | nil =>
    refine ⟨[], fun _ => layout, rfl, fun position copy hcopy => ?_,
      .inl ⟨rfl, fun steps => ?_, ?_⟩⟩
    · cases hcopy
    · rw [List.flatten_nil, List.append_nil]
      rfl
    · exact ⟨found, hway⟩
  | cons value others ih =>
    obtain ⟨hvalue, hothers⟩ := MacroCall.further_of_drop hvalues
    have hvisits := (hway.startRound hothers).visits hvariadic hvalue
    obtain ⟨last, hlast, hframes, houtcome⟩ := returns_roundMachine hnested body rest first layout
    cases hplaced : placeTo environment environment.macros.length
        (call.inRound (some first) :: outer) layout body with
    | error failure =>
      refine ⟨[], fun _ => layout, rfl, fun position copy hcopy => ?_,
        .inr ⟨failure, Nat.zero_lt_succ _, hvisits, hplaced, fun steps => ?_⟩⟩
      · cases hcopy
      · rw [layRounds_cons hvalue, hplaced]
        rfl
    | ok placed =>
      obtain ⟨copy, next⟩ := placed
      rw [hplaced] at houtcome
      rw [last.eq_of_outcome hframes hlast.orders_eq houtcome] at hlast
      have hcopy : LaysCopy environment call outer body rest loop first layout next copy :=
        { toVisitsRound := hvisits, placed := hplaced, leaves := hlast }
      have hnext := hcopy.comesBy
      rw [behindRound_eq hothers] at hnext
      obtain ⟨copies, layouts, rfl, hcopies, hends⟩ := ih (first + 1) hothers _ next hnext
      refine ⟨copy :: copies, layout.before layouts, rfl, ?_, ?_⟩
      · intro position found hfound
        cases position with
        | zero =>
          cases hfound
          exact hcopy
        | succ position =>
          have hshift : first + 1 + position = first + (position + 1) := by omega
          exact hshift ▸ hcopies position found hfound
      · rcases hends with hdone | ⟨failure, hfails⟩
        · exact .inl (hdone.behind hvalue hcopy)
        · exact .inr ⟨failure, hfails.behind hvalue hcopy⟩

end Rounds

/-! ## Emission -/

/-- Copies are emitted one after the other. -/
theorem emitSteps_flatten (labels : List Resolution) (copies : List (List Step))
    (emission : Emission) :
    emitSteps labels emission copies.flatten = copies.foldlM (emitSteps labels) emission := by
  induction copies generalizing emission with
  | nil => rfl
  | cons copy rest ih =>
    rw [List.flatten_cons, List.foldlM_cons, emitSteps_eq_emitEvents, stepEvents_append,
      emitEvents_append, ← emitSteps_eq_emitEvents]
    refine bind_congr fun next => ?_
    rw [← emitSteps_eq_emitEvents, ih]

/-- Whenever the program is laid out, the copies are emitted one after the other, behind all that
the walk came across before and in front of all that is left to be done. -/
def EmitsInOrder (environment : Environment) (actions : List Action)
    (trace : List (Layout × Event)) (next : Layout) (others : List Task)
    (copies : List (List Step)) : Prop :=
  ∀ steps last, layoutProgram environment actions = .ok (steps, last) →
    ∃ tail, FirstWalk environment next others tail last ∧
      ∀ labels, emitProgram last labels steps =
        emitEvents labels (Emission.initial last) (trace.map Prod.snd) >>= fun before =>
          copies.foldlM (emitSteps labels) before >>= fun after =>
            emitEvents labels after (tail.map Prod.snd)

/-- A program is emitted in the order of its walk. -/
theorem WalksThrough.emitsInOrder {environment : Environment} {actions : List Action}
    {trace : List (Layout × Event)} {layout next : Layout} {calls : List MacroCall}
    {action : Action} {others : List Task} {copies : List (List Step)} {location : Location}
    (hwalk : WalksThrough environment Layout.empty (bodyTasks [] actions) trace layout
      (.action calls action :: others))
    (hplaced : placeTo environment environment.macros.length calls layout [action] =
      .ok ([.expansion none copies.flatten location], next)) :
    EmitsInOrder environment actions trace next others copies := by
  intro steps last hprogram
  obtain ⟨-, whole, hwhole, hcomplete⟩ := layoutProgram_firstWalk hprogram
  obtain ⟨inner, hinner, hspans⟩ := placeTo_followed environment _ _ _ _ _ _ hplaced
  have hreached := hwalk.walksTo.trans (hspans.firstWalk.walksTo.append others)
  obtain ⟨tail, htail⟩ := hcomplete.of_walksTo hreached
  -- There is one walk, so it goes through the events of the copies where it comes to the loop.
  obtain ⟨rfl, -⟩ := hcomplete.unique (hwalk.firstWalk (hspans _ _ _ htail))
  refine ⟨tail, htail, fun labels => ?_⟩
  rw [emitProgram_eq_emitEvents, ← hwhole, List.map_append, List.map_append, hinner,
    emitEvents_append]
  refine bind_congr fun emission => ?_
  have hsingle : emitSteps labels emission [.expansion none copies.flatten location] =
      emitSteps labels emission copies.flatten := bind_pure _
  rw [emitEvents_append, ← emitSteps_eq_emitEvents, hsingle, emitSteps_flatten]

/-! ## Loops of a program -/

/-- A failing action that the walk comes to is the failure of the program. -/
theorem layoutProgram_of_failing {environment : Environment} {actions : List Action}
    {trace : List (Layout × Event)} {layout : Layout} {calls : List MacroCall} {action : Action}
    {others : List Task} {failure : Failure}
    (hwalk : WalksThrough environment Layout.empty (bodyTasks [] actions) trace layout
      (.action calls action :: others)) (hnested : Nested environment calls)
    (h : placeTo environment environment.macros.length calls layout [action] = .error failure) :
    layoutProgram environment actions = .error failure := by
  have hstops := placeTo_blames environment environment.macros.length calls.length
    (Nat.le_add_right _ _) calls layout [action] failure hnested rfl h
  have hall := (hstops.append others).after hwalk.walksTo
  cases hprogram : layoutProgram environment actions with
  | ok laid =>
    obtain ⟨steps, last⟩ := laid
    obtain ⟨-, whole, -, hcomplete⟩ := layoutProgram_firstWalk hprogram
    exact absurd hcomplete hall.not_firstWalk
  | error other =>
    rcases layoutProgram_eq_error hprogram with hother | ⟨whole, last, frame, hcomplete, -⟩
    · rw [hall.unique hother]
    · exact absurd hcomplete hall.not_firstWalk

/-- A loop visits every further argument once, in order. Whenever the first walk through a program
comes to a loop in a macro call with further arguments, the machine with one stack comes to it with
the same calls. From there it visits one round after the other, in each of which the innermost call
has the index of the round and the argument that belongs to it, also behind inner loops and in the
arms of conditional blocks. There are as many copies of the body as further arguments, and behind
them the call is in the round it had before; or a round fails, and the program with it. When the
program is laid out, the copies are emitted in their order, behind everything before the loop and
before everything behind it. -/
theorem loop_visits_arguments {environment : Environment} {actions : List Action}
    {trace : List (Layout × Event)} {layout : Layout} {call : MacroCall} {outer : List MacroCall}
    {body : List Action} {location : Location} {others : List Task}
    (hwalk : WalksThrough environment Layout.empty (bodyTasks [] actions) trace layout
      (.action (call :: outer) (.argumentLoop body location) :: others))
    (hvariadic : call.variadic = true) :
    ∃ (rest : List Order) (loop : FrameMachine) (copies : List (List Step))
      (layouts : Nat → Layout),
      loop = ⟨call :: outer, layout, .lay (.argumentLoop body location) :: rest, none⟩ ∧
      ComesBy environment [] (.start actions) loop ∧ layouts 0 = layout ∧
      (∀ index copy, copies[index]? = some copy →
        LaysCopy environment call outer body rest loop index (layouts index) (layouts (index + 1))
          copy) ∧
      ((copies.length = call.arguments.length - call.parameters.length ∧
          Returns environment rest loop ⟨call :: outer, layouts copies.length, rest, none⟩ ∧
          placeTo environment environment.macros.length (call :: outer) layout
              [.argumentLoop body location] =
            .ok ([.expansion none copies.flatten location], layouts copies.length) ∧
          EmitsInOrder environment actions trace (layouts copies.length) others copies) ∨
        (copies.length < call.arguments.length - call.parameters.length ∧
          VisitsRound environment call outer body rest loop copies.length (layouts copies.length) ∧
          ∃ failure, placeTo environment environment.macros.length
              (call.inRound (some copies.length) :: outer) (layouts copies.length) body =
                .error failure ∧
            layoutProgram environment actions = .error failure)) := by
  obtain ⟨rest, hloop⟩ := hwalk.comesBy
  have hnested : Nested environment (call :: outer) := hloop.nested .nil
  have hfurther : call.furtherArguments.length =
      call.arguments.length - call.parameters.length := List.length_drop
  have hrounds : ComesBy environment rest
      ⟨call :: outer, layout, .lay (.argumentLoop body location) :: rest, none⟩
      ⟨{ call with round := call.round } :: outer, layout,
        roundOrders (List.range' 0 call.furtherArguments.length) body ++
          .endRounds call.round :: rest, none⟩ := by
    rw [← List.range_eq_range']
    exact .obey (Nat.le_refl _) rfl (.here _)
  obtain ⟨copies, layouts, rfl, hcopies, hends⟩ := exists_rounds hvariadic hnested
    call.furtherArguments 0 rfl call.round layout hrounds
  have hplaced := placeTo_argumentLoop environment call outer (layouts 0) body location
  simp only [Nat.zero_add] at hcopies
  refine ⟨rest, _, copies, layouts, rfl, hloop, rfl, hcopies, ?_⟩
  rcases hends with hdone | ⟨failure, hfails⟩
  · obtain ⟨found, hbehind⟩ := hdone.arrives
    rw [hdone.laid []] at hplaced
    have hreturns : ComesBy environment rest
        ⟨call :: outer, layouts 0, .lay (.argumentLoop body location) :: rest, none⟩
        ⟨call :: outer, layouts copies.length, rest, none⟩ :=
      hbehind.trans (.obey (Nat.le_refl _) rfl (.here _))
    exact .inl ⟨hdone.length.trans hfurther, hreturns.returns rfl, hplaced,
      hwalk.emitsInOrder hplaced⟩
  · have hvisits := hfails.visits
    have hfailed := hfails.failed
    rw [Nat.zero_add] at hvisits hfailed
    rw [hfails.laid []] at hplaced
    exact .inr ⟨hfurther ▸ hfails.length, hvisits, failure, hfailed,
      layoutProgram_of_failing hwalk hnested hplaced⟩

/-- A loop over 5 and 7 in a macro with one parameter, with another loop over them in its body,
behind which the index of the round is that of the outer loop. -/
theorem loop_visits_arguments_nested :
    ∃ environment actions inner body trace layout call others rest loop copies,
      ∃ (layouts : Nat → Layout) (laid : List Step × Layout),
      inner = [.operation (.data .byte [.name ⟨"\\v", false⟩]) default] ∧
      body = [.argumentLoop inner default,
        .operation (.data .byte [.name ⟨"\\i", false⟩]) default] ∧
      environment.macros = [("m", ⟨["p"], true, [.argumentLoop body default]⟩)] ∧
      actions = [.operation (.createSegment "c" 0x8000 9 0) default,
        .operation (.changeSegment "c") default,
        .callMacro "m" [.number (.ofInt 1), .number (.ofInt 5), .number (.ofInt 7)] default] ∧
      WalksThrough environment Layout.empty (bodyTasks [] actions) trace layout
        (.action [call] (.argumentLoop body default) :: others) ∧
      (∀ index copy, copies[index]? = some copy →
        LaysCopy environment call [] body rest loop index (layouts index) (layouts (index + 1))
          copy) ∧
      copies.length = 2 ∧ layoutProgram environment actions = .ok laid ∧
      EmitsInOrder environment actions trace (layouts copies.length) others copies := by
  let inner : List Action := [.operation (.data .byte [.name ⟨"\\v", false⟩]) default]
  let body : List Action :=
    [.argumentLoop inner default, .operation (.data .byte [.name ⟨"\\i", false⟩]) default]
  let environment : Environment :=
    ⟨[("m", ⟨["p"], true, [.argumentLoop body default]⟩)], [], ⟨.ofTable [], []⟩⟩
  let actions : List Action := [.operation (.createSegment "c" 0x8000 9 0) default,
    .operation (.changeSegment "c") default,
    .callMacro "m" [.number (.ofInt 1), .number (.ofInt 5), .number (.ofInt 7)] default]
  obtain ⟨laid, hlaid⟩ := exists_of_isOk
    (show (layoutProgram environment actions).isOk = true by decide +kernel)
  have hreached : WalksTo environment Layout.empty (bodyTasks [] actions) _ _ :=
    .step rfl (.step rfl (.step rfl (.here _ _)))
  obtain ⟨trace, hwalk⟩ := hreached.exists_history
  obtain ⟨rest, loop, copies, layouts, -, -, -, hcopies, hends⟩ :=
    loop_visits_arguments hwalk rfl
  rcases hends with ⟨hlength, -, -, hemits⟩ | ⟨-, -, failure, -, hfails⟩
  · exact ⟨environment, actions, inner, body, trace, _, _, _, rest, loop, copies, layouts, laid,
      rfl, rfl, rfl, rfl, hwalk, hcopies, hlength, hlaid, hemits⟩
  · cases hlaid.symm.trans hfails

end Asm65816
