import Asm65816.Proofs.BindConflicts
import Asm65816.Proofs.PreparedOperands

/-!
# The scope of macro arguments

Macro expansion binds arguments inside of expressions. Its outcome is that of an evaluator which
keeps arguments as they were written, each with the place of its call: a name in the body of a
macro means an argument of that call, whose own names are looked up where the call stands. No name
of an argument is taken for a parameter of the macro it is passed to, or of any deeper one.
-/

namespace Asm65816

/-! ## Evaluation with a lookup -/

namespace Expr

mutual

/-- The value of an expression whose names are looked up. -/
def evaluate (lookup : Name → Except EvalError Number) : Expr → Except EvalError Number
  | .number n => .ok n
  | .name n => lookup n
  | .bound _ value => value.evaluate lookup
  | .unary op e => do op.apply (← e.evaluate lookup)
  | .binary op l r => do op.apply (← l.evaluate lookup) (← r.evaluate lookup)
  | .group items _ => evaluateItems lookup items
  | .text _ _ => .error .stringValue
  | .immediate e => e.evaluate lookup

/-- The value of a group, which has one when it holds exactly one item. -/
def evaluateItems (lookup : Name → Except EvalError Number) :
    List Expr → Except EvalError Number
  | [single] => single.evaluate lookup
  | items => .error (.groupValue items.length)

end

/-- A group of several items or of none has no value. -/
theorem evaluateItems_of_length {lookup : Name → Except EvalError Number} {items : List Expr}
    (h : items.length ≠ 1) : evaluateItems lookup items = .error (.groupValue items.length) := by
  unfold evaluateItems
  split
  · simp at h
  · rfl

end Expr

/-- A scope as a lookup. -/
def Scope.lookup (scope : Scope) (name : Name) : Except EvalError Number :=
  match scope name with
  | some value => .ok value
  | none => .error (.unresolvedName name.ident)

/-- Evaluation in a scope looks names up there. -/
theorem Expr.collapse_eq_evaluate (scope : Scope) (e : Expr) :
    e.collapse scope = e.evaluate scope.lookup := by
  induction e using Expr.inductionOn with
  | number value => rfl
  | name found => rfl
  | bound found value ih => exact ih
  | unary op operand ih => rw [collapse_unary, evaluate, ih]
  | binary op left right ihl ihr => rw [collapse_binary, evaluate, ihl, ihr]
  | group items long ih =>
    rw [collapse, evaluate]
    unfold collapseItems
    split
    case h_1 single => exact ih single (List.mem_singleton_self single)
    case h_2 hmany =>
      refine (evaluateItems_of_length fun hone => ?_).symm
      obtain ⟨single, rfl⟩ := List.length_eq_one_iff.mp hone
      exact hmany single rfl
  | text content petscii => rfl
  | immediate operand ih => exact ih

/-- Binding keeps the number of items. -/
theorem Expr.length_bindAll {ε : Type} {choose : Name → Except ε (Option Expr)}
    {items bound : List Expr} (h : bindAll choose items = .ok bound) :
    bound.length = items.length := by
  induction items generalizing bound with
  | nil =>
    cases h
    rfl
  | cons item rest ih =>
    simp only [bindAll, bind_eq_ok, pure_eq_ok] at h
    obtain ⟨first, -, others, hothers, rfl⟩ := h
    rw [List.length_cons, List.length_cons, ih hothers]

/-- Binding names is looking them up elsewhere: an expression in which names were bound has the
value of the expression itself when a chosen name has the value of what was chosen for it. -/
theorem Expr.evaluate_bindNames {ε : Type} {choose : Name → Except ε (Option Expr)}
    {lookup target : Name → Except EvalError Number} {e bound : Expr}
    (h : e.bindNames choose = .ok bound)
    (hchosen : ∀ name value, choose name = .ok (some value) → value.evaluate lookup = target name)
    (hopen : ∀ name, choose name = .ok none → lookup name = target name) :
    bound.evaluate lookup = e.evaluate target := by
  induction e using Expr.inductionOn generalizing bound with
  | number value =>
    cases h
    rfl
  | name found =>
    simp only [bindNames, bind_eq_ok] at h
    obtain ⟨chosen, hchoice, h⟩ := h
    cases chosen with
    | none =>
      cases h
      exact hopen found hchoice
    | some value =>
      cases h
      exact hchosen found value hchoice
  | bound found value ih =>
    simp only [bindNames, bind_eq_ok, pure_eq_ok] at h
    obtain ⟨inner, hinner, rfl⟩ := h
    rw [evaluate, evaluate, ih hinner]
  | unary op operand ih =>
    simp only [bindNames, bind_eq_ok, pure_eq_ok] at h
    obtain ⟨inner, hinner, rfl⟩ := h
    rw [evaluate, evaluate, ih hinner]
  | binary op left right ihl ihr =>
    simp only [bindNames, bind_eq_ok, pure_eq_ok] at h
    obtain ⟨first, hfirst, second, hsecond, rfl⟩ := h
    rw [evaluate, evaluate, ihl hfirst, ihr hsecond]
  | group items long ih =>
    simp only [bindNames, bind_eq_ok, pure_eq_ok] at h
    obtain ⟨inner, hinner, rfl⟩ := h
    rw [evaluate, evaluate]
    by_cases hone : items.length = 1
    · obtain ⟨single, rfl⟩ := List.length_eq_one_iff.mp hone
      simp only [bindAll, bind_eq_ok, pure_eq_ok, Except.ok.injEq] at hinner
      obtain ⟨first, hfirst, others, rfl, rfl⟩ := hinner
      exact ih single (List.mem_singleton_self single) hfirst
    · have hlength := length_bindAll hinner
      rw [evaluateItems_of_length hone, evaluateItems_of_length (by omega), hlength]
  | text content petscii =>
    cases h
    rfl
  | immediate operand ih =>
    simp only [bindNames, bind_eq_ok, pure_eq_ok] at h
    obtain ⟨inner, hinner, rfl⟩ := h
    rw [evaluate, evaluate, ih hinner]

/-! ## Places of operands -/

/-- Where a statement stands: in the program itself, or in the body of a macro that was called
with the given operands at another place. In a loop it is in the round of one further argument. -/
inductive Site where
  | program
  | body (name : String) (operands : List Expr) (round : Option Nat) (caller : Site)

/-- What a name means in the body of a macro called with the given operands, as an expression of
the place of the call. Names with a backslash are those of further arguments, any other one may be
a parameter. -/
def MacroDefinition.meaning (definition : MacroDefinition) (operands : List Expr)
    (round : Option Nat) (ident : String) : Option Expr :=
  let further := operands.drop definition.parameters.length
  match ident.toList with
  | '\\' :: special =>
    if !definition.variadic then none
    else match special with
      | ['L'] => some (.number (.ofInt further.length))
      | ['i'] => round.map fun index : Nat => .number (.ofInt index)
      | ['v'] => round.bind fun index => further[index]?
      | digits => further[positionalValue 10 digits]?
  | _ => (definition.parameters.idxOf? ident).bind fun position => operands[position]?

/-- What a name means that is no argument: the current address, an equate or a label. -/
def Environment.lookup (environment : Environment) (address : Int) (labels : Scope)
    (name : Name) : Except EvalError Number :=
  if name.ident = "." then .ok (addressNumber address)
  else match environment.equates.get? name.ident with
    | some value => .ok value
    | none => labels.lookup name

/-- A call in the round of a loop at one of its further arguments. -/
def MacroCall.inRound (call : MacroCall) (round : Option Nat) : MacroCall :=
  { call with round := round.bind fun index =>
      call.furtherArguments[index]?.map fun value => (index, value) }

/-- The round at a further argument takes the place of the round that the call was in. -/
theorem MacroCall.inRound_of_further {call : MacroCall} {index : Nat} {value : Expr}
    (h : call.furtherArguments[index]? = some value) (found : Option (Nat × Expr)) :
    MacroCall.inRound { call with round := found } (some index) =
      { call with round := some (index, value) } :=
  congrArg (fun round => { call with round := round })
    (congrArg (Option.map fun value => (index, value)) h)

namespace Site

/-- The value of a name at a place, where names in the body of a macro have a given meaning. An
argument has its value where the call stands. -/
def lookupBy (meaning : MacroDefinition → List Expr → Option Nat → String → Option Expr)
    (environment : Environment) (address : Int) (labels : Scope) :
    Site → Name → Except EvalError Number
  | program, name => environment.lookup address labels name
  | body macroName operands round caller, name =>
    let meant := (environment.macros.get? macroName).bind fun definition =>
      meaning definition operands round name.ident
    match meant with
    | some argument => argument.evaluate (caller.lookupBy meaning environment address labels)
    | none => environment.lookup address labels name

/-- The value of a name at a place. -/
def lookup (environment : Environment) (address : Int) (labels : Scope) (site : Site) :
    Name → Except EvalError Number :=
  site.lookupBy MacroDefinition.meaning environment address labels

/-- The macro calls that are open at a place, innermost first. -/
def calls (environment : Environment) : Site → Except Fault (List MacroCall)
  | program => .ok []
  | body name operands round caller => do
    let outer ← caller.calls environment
    let (call, _) ← openCall environment outer name operands
    return call.inRound round :: outer

/-- The actions around a place: those of its macro, or all of the program. -/
def actions (environment : Environment) (program : List Action) : Site → List Action
  | .program => program
  | body name _ _ _ => (environment.macros.get? name).elim [] MacroDefinition.body

end Site

/-- The arguments of a call are its operands one by one. -/
theorem mapM_getElem? {α β ε : Type} {step : α → Except ε β} {items : List α} {results : List β}
    (h : items.mapM step = .ok results) :
    results.length = items.length ∧ ∀ (position : Nat) result,
      results[position]? = some result →
      ∃ item, items[position]? = some item ∧ step item = .ok result := by
  induction items generalizing results with
  | nil =>
    obtain rfl := pure_eq_ok.mp h
    simp
  | cons item rest ih =>
    simp only [List.mapM_cons, bind_eq_ok, pure_eq_ok] at h
    obtain ⟨first, hfirst, others, hothers, rfl⟩ := h
    obtain ⟨hlength, hrest⟩ := ih hothers
    refine ⟨by simp [hlength], fun position result hresult => ?_⟩
    cases position with
    | zero =>
      cases hresult
      exact ⟨item, rfl, hfirst⟩
    | succ position => exact hrest position result hresult

section Scoping

variable {environment : Environment} {address : Int} {labels : Scope}

/-- Binding the current address and the equates is looking names up in the environment. -/
theorem bindEquates_evaluate {operand bound : Expr}
    (h : bindEquates environment.equates address none operand = .ok bound) :
    bound.collapse labels = operand.evaluate (environment.lookup address labels) := by
  rw [Expr.collapse_eq_evaluate]
  refine Expr.evaluate_bindNames h (fun name value hvalue => ?_) (fun name hnone => ?_)
  · simp only [Except.ok.injEq, Option.map_eq_some_iff] at hvalue
    obtain ⟨number, hnumber, rfl⟩ := hvalue
    unfold Environment.lookup
    split
    case isTrue hdot =>
      rw [if_pos hdot] at hnumber
      cases hnumber
      rfl
    case isFalse hdot =>
      rw [if_neg hdot, Option.or_none] at hnumber
      rw [hnumber]
      rfl
  · simp only [Except.ok.injEq, Option.map_eq_none_iff] at hnone
    unfold Environment.lookup
    split
    case isTrue hdot =>
      rw [if_pos hdot] at hnone
      cases hnone
    case isFalse hdot =>
      rw [if_neg hdot, Option.or_none] at hnone
      rw [hnone]

/-- Arguments stand for operands when they have the same value, the one in the callee and the other
where the call stands. -/
def StandsFor (lookup caller : Name → Except EvalError Number) : Option Expr → Option Expr → Prop :=
  Option.Rel fun argument operand => argument.evaluate lookup = operand.evaluate caller

/-- A call whose arguments stand for the operands it was written with. -/
structure MacroCall.Stands (definition : MacroDefinition) (operands : List Expr)
    (round : Option Nat) (lookup caller : Name → Except EvalError Number) (call : MacroCall) :
    Prop where
  parameters : call.parameters = definition.parameters
  variadic : call.variadic = definition.variadic
  length : call.arguments.length = operands.length
  arguments : ∀ position : Nat,
    StandsFor lookup caller call.arguments[position]? operands[position]?
  round : call.round = round.bind fun index => call.furtherArguments[index]?.map fun value =>
    (index, value)

namespace MacroCall.Stands

variable {definition : MacroDefinition} {operands : List Expr} {round : Option Nat}
  {lookup caller : Name → Except EvalError Number} {call : MacroCall}

/-- The further arguments of a call stand for its further operands. -/
theorem further (h : call.Stands definition operands round lookup caller) (position : Nat) :
    StandsFor lookup caller call.furtherArguments[position]?
      (operands.drop definition.parameters.length)[position]? := by
  rw [furtherArguments, h.parameters, List.getElem?_drop, List.getElem?_drop]
  exact h.arguments _

/-- The round of a call is at one of its further arguments. -/
theorem round_eq_some (h : call.Stands definition operands round lookup caller) {index : Nat}
    {value : Expr} (hround : call.round = some (index, value)) :
    round = some index ∧ call.furtherArguments[index]? = some value := by
  rw [h.round] at hround
  obtain ⟨found, rfl, hvalue⟩ := Option.bind_eq_some_iff.mp hround
  obtain ⟨argument, hargument, heq⟩ := Option.map_eq_some_iff.mp hvalue
  cases heq
  exact ⟨rfl, hargument⟩

/-- What a name means inside of a call has the value of its meaning where the call stands. -/
theorem meaning (h : call.Stands definition operands round lookup caller) {ident : String}
    {found : Option Expr} (hfound : call.argument ident = .ok found) :
    StandsFor lookup caller found (definition.meaning operands round ident) := by
  unfold MacroCall.argument at hfound
  split at hfound
  case h_1 letters special hspecial =>
    obtain ⟨hvariadic, hfound⟩ := refuse_eq_ok.mp hfound
    rw [h.variadic] at hvariadic
    split at hfound
    case h_1 =>
      cases hfound
      simp only [MacroDefinition.meaning, hspecial, if_neg hvariadic]
      rw [furtherArguments, h.parameters, List.length_drop, h.length, ← List.length_drop]
      exact .some rfl
    case h_2 =>
      split at hfound
      case h_1 index value hround =>
        cases hfound
        obtain ⟨rfl, -⟩ := h.round_eq_some hround
        simp only [MacroDefinition.meaning, hspecial, if_neg hvariadic]
        exact .some rfl
      case h_2 => cases hfound
    case h_3 =>
      split at hfound
      case h_1 index value hround =>
        cases hfound
        obtain ⟨rfl, hargument⟩ := h.round_eq_some hround
        simp only [MacroDefinition.meaning, hspecial, if_neg hvariadic]
        rw [Option.bind_some, ← hargument]
        exact h.further index
      case h_2 => cases hfound
    case h_4 hcount hindex hvalue =>
      cases hfound
      simp only [MacroDefinition.meaning, hspecial, if_neg hvariadic]
      exact h.further _
  case h_2 letters hplain =>
    rw [h.parameters] at hfound
    have hmeaning : definition.meaning operands round ident =
        (definition.parameters.idxOf? ident).bind fun position => operands[position]? := by
      unfold MacroDefinition.meaning
      split
      case h_1 special hspecial => exact absurd hspecial (hplain special)
      case h_2 => rfl
    rw [hmeaning]
    split at hfound
    case h_1 position hposition =>
      cases hfound
      simp only [hposition, Option.bind_some]
      exact h.arguments position
    case h_2 hmissing =>
      cases hfound
      simp only [hmissing, Option.bind_none]
      exact .none

end MacroCall.Stands

/-- An opened call stands for its operands. -/
theorem openCall_stands {name : String} {operands : List Expr} {outer : List MacroCall}
    {call : MacroCall} {body : List Action} {lookup caller : Name → Except EvalError Number}
    (h : openCall environment outer name operands = .ok (call, body))
    (houter : ∀ operand bound, bindArguments outer operand = .ok bound →
      bound.evaluate lookup = operand.evaluate caller) (round : Option Nat) :
    ∃ definition, environment.macros.get? name = some definition ∧
      (call.inRound round).Stands definition operands round lookup caller := by
  obtain ⟨definition, arguments, hfound, harguments, -, rfl, -⟩ := openCall_eq_ok h
  obtain ⟨hlength, hbound⟩ := mapM_getElem? harguments
  refine ⟨definition, hfound, rfl, rfl, hlength, fun position => ?_, rfl⟩
  change StandsFor lookup caller arguments[position]? operands[position]?
  cases hargument : arguments[position]? with
  | none =>
    rw [List.getElem?_eq_none_iff, hlength, ← List.getElem?_eq_none_iff] at hargument
    rw [hargument]
    exact .none
  | some value =>
    obtain ⟨operand, hoperand, hsame⟩ := hbound position value hargument
    rw [hoperand]
    exact .some (houter operand value hsame)

/-- Binding arguments at a place is looking names up at that place. -/
theorem Site.bindArguments_evaluate {site : Site} {calls : List MacroCall} {operand bound : Expr}
    (hcalls : site.calls environment = .ok calls)
    (h : bindArguments calls operand = .ok bound) :
    bound.evaluate (environment.lookup address labels) =
      operand.evaluate (site.lookup environment address labels) := by
  induction site generalizing calls operand bound with
  | program =>
    cases hcalls
    cases h
    rfl
  | body name operands round caller ih =>
    simp only [Site.calls, bind_eq_ok, pure_eq_ok] at hcalls
    obtain ⟨outer, houter, ⟨call, body⟩, hopen, rfl⟩ := hcalls
    obtain ⟨definition, hfound, hstands⟩ :=
      openCall_stands hopen (fun operand bound hbound => ih houter hbound) round
    refine Expr.evaluate_bindNames h (fun found value hvalue => ?_) (fun found hnone => ?_)
    · have hmeaning := hstands.meaning hvalue
      simp only [Site.lookup, Site.lookupBy, hfound, Option.bind_some]
      generalize definition.meaning operands round found.ident = meant at hmeaning ⊢
      cases hmeaning with
      | some hsame => exact hsame
    · have hmeaning := hstands.meaning hnone
      simp only [Site.lookup, Site.lookupBy, hfound, Option.bind_some]
      generalize definition.meaning operands round found.ident = meant at hmeaning ⊢
      cases hmeaning with
      | none => rfl

end Scoping

/-! ## The places of a walk -/

/-- An action among those of a body or inside of its conditional blocks and loops. -/
inductive Action.Inside (body : List Action) : Action → Prop where
  | here {action : Action} (mem : action ∈ body) : Inside body action
  | arm {action : Action} {arms : List ConditionalArm} {location armLocation : Location}
      {condition : Option Expr} {inner : List Action}
      (outer : Inside body (.conditional arms location))
      (mem : ConditionalArm.mk condition inner armLocation ∈ arms) (deep : action ∈ inner) :
      Inside body action
  | loop {action : Action} {inner : List Action} {location : Location}
      (outer : Inside body (.argumentLoop inner location)) (deep : action ∈ inner) :
      Inside body action

/-- A task whose calls are those of a place that its action stands at. -/
def Task.Sited (environment : Environment) (program : List Action) : Task → Prop
  | .action calls found => ∃ site : Site, site.calls environment = .ok calls ∧
      found.Inside (site.actions environment program)
  | .leave _ => True

/-- The chosen body is that of an arm, or empty. -/
theorem chosenBody_eq_ok {environment : Environment} {calls : List MacroCall} {address : Int}
    {arms : List ConditionalArm} {body : List Action}
    (h : chosenBody environment calls address arms = .ok body) :
    body = [] ∨ ∃ condition location, ConditionalArm.mk condition body location ∈ arms := by
  induction arms with
  | nil =>
    cases h
    exact .inl rfl
  | cons arm rest ih =>
    cases arm with
    | mk condition found location =>
      obtain ⟨holds, -, h⟩ := bind_eq_ok.mp h
      cases holds with
      | true =>
        cases h
        exact .inr ⟨condition, location, List.mem_cons_self⟩
      | false =>
        rcases ih h with hempty | ⟨condition, location, hmem⟩
        · exact .inl hempty
        · exact .inr ⟨condition, location, List.mem_cons_of_mem _ hmem⟩

section Places

variable {environment : Environment} {program : List Action}

/-- The tasks of an expansion have a place when those of its body have. -/
theorem Task.sited_expansion {tasks : List Task} {location : Location}
    (h : ∀ task ∈ tasks, task.Sited environment program) :
    ∀ task ∈ tasks ++ [.leave location], task.Sited environment program := by
  intro task htask
  rcases List.mem_append.mp htask with hbody | hleave
  · exact h task hbody
  · obtain rfl := List.mem_singleton.mp hleave
    trivial

/-- A task leaves tasks to be done that have a place. -/
theorem Task.Sited.advance {task : Task} {layout next : Layout} {event : Event} {more : List Task}
    (h : task.Sited environment program)
    (hadvance : task.advance environment layout = .ok (event, next, more)) :
    ∀ later ∈ more, later.Sited environment program := by
  cases task with
  | leave location =>
    cases hadvance
    simp
  | action calls action =>
    obtain ⟨site, hcalls, hinside⟩ := h
    cases action with
    | operation operation location =>
      obtain ⟨placed, -, hadvance⟩ := bind_eq_ok.mp hadvance
      obtain ⟨occupied, -, hadvance⟩ := bind_eq_ok.mp hadvance
      cases hadvance
      simp
    | callMacro name operands location =>
      obtain ⟨⟨call, body⟩, hopened, hadvance⟩ := bind_eq_ok.mp hadvance
      cases hadvance
      replace hopened := failingAt_eq_ok.mp hopened
      refine Task.sited_expansion fun task htask => ?_
      obtain ⟨action, haction, rfl⟩ := List.mem_map.mp htask
      obtain ⟨definition, arguments, hfound, -, -, rfl, rfl⟩ := openCall_eq_ok hopened
      refine ⟨.body name operands none site, ?_, .here ?_⟩
      · simp only [Site.calls, hcalls, hopened, ok_bind]
        rfl
      · simpa [Site.actions, hfound] using haction
    | conditional arms location =>
      obtain ⟨body, hbody, hadvance⟩ := bind_eq_ok.mp hadvance
      cases hadvance
      refine Task.sited_expansion fun task htask => ?_
      obtain ⟨action, haction, rfl⟩ := List.mem_map.mp htask
      rcases chosenBody_eq_ok hbody with rfl | ⟨condition, armLocation, hmem⟩
      · cases haction
      · exact ⟨site, hcalls, .arm hinside hmem haction⟩
    | argumentLoop body location =>
      cases calls with
      | nil => cases hadvance
      | cons call outer =>
        cases hadvance
        refine Task.sited_expansion fun task htask => ?_
        obtain ⟨⟨value, index⟩, hround, hmem⟩ := List.mem_flatMap.mp htask
        obtain ⟨action, haction, rfl⟩ := List.mem_map.mp hmem
        cases site with
        | program => cases hcalls
        | body name operands round caller =>
          -- The loop goes on in another round of the same call.
          refine ⟨.body name operands (some index) caller, ?_, .loop hinside haction⟩
          simp only [Site.calls, bind_eq_ok, pure_eq_ok] at hcalls ⊢
          obtain ⟨outer', houter, ⟨opened, body'⟩, hopened, hsame⟩ := hcalls
          cases hsame
          refine ⟨outer, houter, _, hopened, ?_⟩
          have hvalue : opened.furtherArguments[index]? = some value :=
            List.mem_zipIdx_iff_getElem?.mp hround
          simp only [MacroCall.inRound, Option.bind_some, hvalue, Option.map_some]

/-- Every action that the first walk comes to stands at a place. -/
theorem WalksTo.sited {found : Layout} {calls : List MacroCall} {action : Action}
    {others : List Task}
    (walk : WalksTo environment Layout.empty (bodyTasks [] program) found
      (.action calls action :: others)) :
    ∃ site : Site, site.calls environment = .ok calls ∧
      action.Inside (site.actions environment program) := by
  have hstart : ∀ task ∈ bodyTasks [] program, task.Sited environment program := by
    intro task htask
    obtain ⟨action, haction, rfl⟩ := List.mem_map.mp htask
    exact ⟨.program, rfl, .here haction⟩
  exact walk.forall_tasks (fun _ _ _ _ _ htask => Task.Sited.advance htask) hstart _
    List.mem_cons_self

end Places

/-- Macro expansion is lexically scoped. Every action that the first walk through a program comes
to stands in the body of a macro, or in the program itself. At every place with the calls of the
action, an operand that is prepared for it has the value, or the error, that it has by looking names
up at that place: an argument means what its operand means where the call stands, whatever the macro
and the ones it calls name their parameters, and any other name is the address, an equate or a
label. No assembly finds a name with two values. -/
theorem macros_lexically_scoped (search : AssetSearch) :
    (∀ (program : Program) (found : Layout) (calls : List MacroCall) (action : Action)
        (others : List Task),
      WalksTo (program.environment search) Layout.empty (bodyTasks [] program.actions) found
        (.action calls action :: others) →
      ∃ site : Site, site.calls (program.environment search) = .ok calls ∧
        action.Inside (site.actions (program.environment search) program.actions)) ∧
      (∀ (environment : Environment) (site : Site) (calls : List MacroCall),
        site.calls environment = .ok calls →
        ∀ location layout operand bound next labels,
          resolveOperand environment calls location layout operand = .ok (bound, next) →
          bound.collapse labels =
            operand.evaluate (site.lookup environment layout.address labels)) ∧
      ∀ main listing error, assemble search main listing = .error error →
        error.isConflict = false := by
  refine ⟨fun program found calls action others hwalk => hwalk.sited,
    fun environment site calls hcalls location layout operand bound next labels h => ?_,
    fun main listing error h => assemble_agrees search main listing error h⟩
  obtain ⟨argued, hargued, hbound⟩ := resolveOperand_prepared h
  rw [bindEquates_evaluate hbound]
  exact site.bindArguments_evaluate hcalls hargued

/-- The macro `outer` passes `q + p` on to the parameter `p` of `inner`, where its `p` is still the
equate. -/
theorem macros_lexically_scoped_nested :
    ∃ (program : Program) (layout : Layout) (site : Site) (calls : List MacroCall) (bound : Expr)
      (next : Layout),
      program.macros =
        [("inner", ⟨["p"], false, [.operation (.data .byte [.name ⟨"p", false⟩]) default]⟩),
          ("outer", ⟨["q"], false, [.callMacro "inner"
            [.binary .add (.name ⟨"q", false⟩) (.name ⟨"p", false⟩)] default]⟩)] ∧
      program.equates = [("p", .ofInt 5)] ∧
      site.calls (program.environment ⟨.ofTable [], []⟩) = .ok calls ∧
      resolveOperand (program.environment ⟨.ofTable [], []⟩) calls default layout
        (.name ⟨"p", false⟩) = .ok (bound, next) ∧
      bound.collapse Scope.empty = Expr.evaluate
        (site.lookup (program.environment ⟨.ofTable [], []⟩) layout.address Scope.empty)
        (.name ⟨"p", false⟩) ∧
      (bound.collapse Scope.empty).map Number.value = .ok 6 := by
  let program : Program :=
    ⟨[], [], [.callMacro "outer" [.number (.ofInt 1)] default],
      [("inner", ⟨["p"], false, [.operation (.data .byte [.name ⟨"p", false⟩]) default]⟩),
        ("outer", ⟨["q"], false, [.callMacro "inner"
          [.binary .add (.name ⟨"q", false⟩) (.name ⟨"p", false⟩)] default]⟩)],
      [("p", .ofInt 5)]⟩
  let layout : Layout :=
    { Layout.empty with segments := [("C", .new "c" 0x8000 9 0 default)], current := some "C" }
  obtain ⟨hsited, hvalue, -⟩ := macros_lexically_scoped ⟨.ofTable [], []⟩
  obtain ⟨site, hcalls, -⟩ :=
    hsited program Layout.empty _ _ _ (.step rfl (.step rfl (.here _ _)))
  exact ⟨program, layout, site, _, _, _, rfl, rfl, hcalls, rfl,
    hvalue _ site _ hcalls default layout (.name ⟨"p", false⟩) _ _ Scope.empty rfl, rfl⟩

/-- A meaning of names by which every parameter is an argument, whatever letters it has. -/
def MacroDefinition.declaredMeaning (definition : MacroDefinition) (operands : List Expr)
    (round : Option Nat) (ident : String) : Option Expr :=
  match definition.parameters.idxOf? ident with
  | some position => operands[position]?
  | none => definition.meaning operands round ident

/-- A parameter with a backslash is not what its name means: in a macro with the parameter `\5`
that is called with 7, the operand `\5` has the value 9 of an equate. -/
theorem parameter_with_backslash_is_no_argument :
    ¬∀ (environment : Environment) (site : Site) calls location layout operand bound next labels,
      site.calls environment = .ok calls →
      resolveOperand environment calls location layout operand = .ok (bound, next) →
      bound.collapse labels = operand.evaluate
        (site.lookupBy MacroDefinition.declaredMeaning environment layout.address labels) := by
  intro h
  let environment : Environment :=
    ⟨[("m", ⟨["\\5"], true, [.operation (.data .byte [.name ⟨"\\5", false⟩]) default]⟩)],
      [("\\5", .ofInt 9)], ⟨.ofTable [], []⟩⟩
  let site : Site := .body "m" [.number (.ofInt 7)] none .program
  let layout : Layout :=
    { Layout.empty with segments := [("C", .new "c" 0x8000 9 0 default)], current := some "C" }
  have hvalues := h environment site _ default layout (.name ⟨"\\5", false⟩) _ _ Scope.empty rfl rfl
  cases hvalues

end Asm65816
