import Asm65816.Proofs.BuildLiterals
import Asm65816.Proofs.PreparedOperands

/-!
# The literals of laid-out operands

Laying a program out copies the bodies of macros and binds arguments, equates and the current
address in operands. The operands that are left for the second walk have sound literals, apart from
the numbers of equates.
-/

namespace Asm65816

variable {equates : Table Number}

/-- A macro call whose arguments have sound literals. -/
structure MacroCall.Sound (equates : Table Number) (call : MacroCall) : Prop where
  arguments : SoundOperands equates call.arguments
  round : ∀ index value, call.round = some (index, value) → value.SoundLiterals equates

/-- What a name means inside a macro has sound literals. -/
theorem MacroCall.Sound.argument {call : MacroCall} (h : call.Sound equates) {ident : String}
    {value : Expr} (hvalue : call.argument ident = .ok (some value)) :
    value.SoundLiterals equates := by
  unfold MacroCall.argument at hvalue
  split at hvalue
  case h_1 =>
    obtain ⟨-, hvalue⟩ := refuse_eq_ok.mp hvalue
    split at hvalue
    case h_1 =>
      cases hvalue
      exact Number.sound_ofInt _
    case h_2 =>
      split at hvalue
      · cases hvalue
        exact Number.sound_ofInt _
      · cases hvalue
    case h_3 =>
      split at hvalue
      case h_1 index found hround =>
        cases hvalue
        exact h.round index value hround
      case h_2 => cases hvalue
    case h_4 =>
      have hfurther : value ∈ call.furtherArguments :=
        List.mem_of_getElem? (Except.ok.inj hvalue)
      exact h.arguments value (List.mem_of_mem_drop hfurther)
  case h_2 =>
    split at hvalue
    case h_1 => exact h.arguments value (List.mem_of_getElem? (Except.ok.inj hvalue))
    case h_2 => cases hvalue

/-- Binding the arguments of a call keeps the literals sound. -/
theorem bindArguments_sound {calls : List MacroCall} {operand bound : Expr}
    (hcalls : ∀ call ∈ calls, call.Sound equates) (hoperand : operand.SoundLiterals equates)
    (h : bindArguments calls operand = .ok bound) : bound.SoundLiterals equates := by
  cases calls with
  | nil =>
    cases h
    exact hoperand
  | cons call outer =>
    exact hoperand.bindNames (fun name value hvalue =>
      .inr ((hcalls call List.mem_cons_self).argument hvalue)) h

/-- A prepared operand has sound literals. -/
theorem Prepared.sound {environment : Environment} {calls : List MacroCall} {address : Int}
    {operand bound : Expr} (h : Prepared environment calls address operand bound)
    (hcalls : ∀ call ∈ calls, call.Sound environment.equates)
    (hoperand : operand.SoundLiterals environment.equates) :
    bound.SoundLiterals environment.equates := by
  obtain ⟨argued, hargued, hbound⟩ := h
  exact bindEquates_sound (bindArguments_sound hcalls hoperand hargued) hbound

/-- A task whose operands have sound literals. -/
def Task.Sound (equates : Table Number) : Task → Prop
  | .action calls found =>
    (∀ call ∈ calls, call.Sound equates) ∧ SoundOperands equates found.operands
  | .leave _ => True

/-- The tasks of a body with sound operands. -/
theorem bodyTasks_sound {calls : List MacroCall} {body : List Action}
    (hcalls : ∀ call ∈ calls, call.Sound equates)
    (hbody : SoundOperands equates (bodyOperands body)) :
    ∀ task ∈ bodyTasks calls body, task.Sound equates := by
  intro task htask
  obtain ⟨action, haction, rfl⟩ := List.mem_map.mp htask
  refine ⟨hcalls, fun operand hoperand => hbody operand ?_⟩
  exact mem_bodyOperands.mpr ⟨action, haction, hoperand⟩

/-- The chosen body is that of an arm. -/
theorem chosenBody_sound {environment : Environment} {calls : List MacroCall} {address : Int}
    {arms : List ConditionalArm} {body : List Action}
    (harms : SoundOperands equates (armOperands arms))
    (h : chosenBody environment calls address arms = .ok body) :
    SoundOperands equates (bodyOperands body) := by
  induction arms with
  | nil =>
    cases h
    exact .nil
  | cons arm rest ih =>
    cases arm with
    | mk condition found location =>
      obtain ⟨holds, -, h⟩ := bind_eq_ok.mp h
      cases holds with
      | true =>
        cases h
        exact fun operand hoperand => harms operand (List.mem_append_left _ hoperand)
      | false =>
        exact ih (fun operand hoperand => harms operand (List.mem_append_right _ hoperand)) h

/-- A macro call whose operands have sound literals. -/
theorem openCall_sound {environment : Environment} {calls : List MacroCall} {name : String}
    {operands : List Expr} {call : MacroCall} {body : List Action}
    (hmacros : SoundMacros equates environment.macros)
    (hcalls : ∀ call ∈ calls, call.Sound equates) (hoperands : SoundOperands equates operands)
    (h : openCall environment calls name operands = .ok (call, body)) :
    call.Sound equates ∧ SoundOperands equates (bodyOperands body) := by
  unfold openCall at h
  split at h
  case h_1 => cases h
  case h_2 definition hdefinition =>
    obtain ⟨-, h⟩ := refuse_eq_ok.mp h
    obtain ⟨-, h⟩ := refuse_eq_ok.mp h
    obtain ⟨arguments, harguments, h⟩ := bind_eq_ok.mp h
    cases h
    refine ⟨⟨fun argument hargument => ?_, fun _ _ hround => by cases hround⟩,
      hmacros name definition hdefinition⟩
    obtain ⟨operand, hoperand, hbound⟩ := (mapM_eq_ok harguments).2 argument hargument
    exact bindArguments_sound hcalls (hoperands operand hoperand) hbound

/-- The tasks of an expansion whose body has sound operands. -/
theorem expansionTasks_sound {tasks : List Task} {location : Location}
    (htasks : ∀ task ∈ tasks, task.Sound equates) :
    ∀ task ∈ tasks ++ [.leave location], task.Sound equates := by
  intro task htask
  rcases List.mem_append.mp htask with hbody | hleave
  · exact htasks task hbody
  · obtain rfl := List.mem_singleton.mp hleave
    trivial

/-- A task leaves tasks with sound literals to be done. -/
theorem Task.Sound.advance {environment : Environment} {task : Task} {layout next : Layout}
    {event : Event} {more : List Task} (h : task.Sound equates)
    (hmacros : SoundMacros equates environment.macros)
    (hadvance : task.advance environment layout = .ok (event, next, more)) :
    ∀ later ∈ more, later.Sound equates := by
  cases task with
  | leave location =>
    cases hadvance
    simp
  | action calls action =>
    obtain ⟨hcalls, hoperands⟩ := h
    cases action with
    | operation operation location =>
      obtain ⟨placed, -, hadvance⟩ := bind_eq_ok.mp hadvance
      obtain ⟨occupied, -, hadvance⟩ := bind_eq_ok.mp hadvance
      cases hadvance
      simp
    | callMacro name operands location =>
      obtain ⟨⟨call, body⟩, hopened, hadvance⟩ := bind_eq_ok.mp hadvance
      cases hadvance
      obtain ⟨hcall, hbody⟩ :=
        openCall_sound hmacros hcalls hoperands (failingAt_eq_ok.mp hopened)
      exact expansionTasks_sound (bodyTasks_sound (List.forall_mem_cons.mpr ⟨hcall, hcalls⟩) hbody)
    | conditional arms location =>
      obtain ⟨body, hbody, hadvance⟩ := bind_eq_ok.mp hadvance
      cases hadvance
      exact expansionTasks_sound (bodyTasks_sound hcalls (chosenBody_sound hoperands hbody))
    | argumentLoop body location =>
      cases calls with
      | nil => cases hadvance
      | cons call outer =>
        cases hadvance
        obtain ⟨hcall, houter⟩ := List.forall_mem_cons.mp hcalls
        refine expansionTasks_sound fun task htask => ?_
        obtain ⟨⟨value, index⟩, hround, hmem⟩ := List.mem_flatMap.mp htask
        have hvalue : value ∈ call.furtherArguments := List.fst_mem_of_mem_zipIdx hround
        have hround : MacroCall.Sound equates { call with round := some (index, value) } := by
          refine ⟨hcall.arguments, fun place found hfound => ?_⟩
          cases hfound
          exact hcall.arguments value (List.mem_of_mem_drop hvalue)
        exact bodyTasks_sound (List.forall_mem_cons.mpr ⟨hround, houter⟩) hoperands task hmem

section Walking

variable {environment : Environment} {actions : List Action}

/-- Every action that the first walk comes to has sound literals, and so have the calls around
it. -/
theorem WalksTo.sound {found : Layout} {calls : List MacroCall} {action : Action}
    {others : List Task}
    (walk : WalksTo environment Layout.empty (bodyTasks [] actions) found
      (.action calls action :: others))
    (hactions : SoundOperands equates (bodyOperands actions))
    (hmacros : SoundMacros equates environment.macros) :
    (∀ call ∈ calls, call.Sound equates) ∧ SoundOperands equates action.operands :=
  walk.forall_tasks (fun _ _ _ _ _ htask => htask.advance hmacros)
    (bodyTasks_sound (by simp) hactions) _ List.mem_cons_self

/-- The operands that are evaluated for an operation of both walks have sound literals. -/
theorem Reached.soundLiterals {final second : Layout} {placed : PlacedOperation}
    {location : Location} (h : Reached environment actions final placed location second)
    (hactions : SoundOperands environment.equates (bodyOperands actions))
    (hmacros : SoundMacros environment.equates environment.macros) :
    SoundOperands environment.equates placed.evaluated := by
  obtain ⟨calls, operation, found, others, hwalk, hstems, -⟩ := h.stemsFrom
  obtain ⟨hcalls, hoperands⟩ := hwalk.sound hactions hmacros
  intro operand hoperand
  cases placed with
  | instruction encoding =>
    obtain ⟨mnemonic, operands, rfl, hprepared, -, -⟩ := hstems
    obtain ⟨bound, hbound, rfl⟩ := List.mem_map.mp hoperand
    obtain ⟨source, hsource, hprepared⟩ := hprepared bound hbound
    exact (hprepared.sound hcalls (hoperands source hsource)).valuePart
  | data width operands =>
    obtain ⟨written, rfl, hprepared⟩ := hstems
    obtain ⟨source, hsource, hprepared⟩ := hprepared operand hoperand
    exact hprepared.sound hcalls (hoperands source hsource)
  | fill wide count value =>
    obtain ⟨written, source, rfl, hprepared⟩ := hstems
    obtain rfl := List.mem_singleton.mp hoperand
    exact hprepared.sound hcalls (hoperands source (by simp [Action.operands, Operation.operands]))
  | flow step frame =>
    cases step with
    | caseStart value follows wide =>
      obtain ⟨source, number, rfl, hprepared, -, -⟩ := hstems
      obtain rfl := List.mem_singleton.mp hoperand
      exact hprepared.sound hcalls (hoperands source (List.mem_singleton_self source))
    | _ => cases hoperand
  | _ => cases hoperand

end Walking

end Asm65816
