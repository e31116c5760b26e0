import Asm65816.Program.Build
import Asm65816.Proofs.Outcome

/-!
# When the steps of the builder succeed

A step of the builder succeeds exactly when its operands, the names in use and the innermost open
block allow it, and then comes to one state. Invariants of the builder follow from these facts, and
open none of the steps again.
-/

namespace Asm65816

/-! ## Operands -/

/-- A single operand is all operands. -/
theorem expectOne_eq_ok {operands : List Expr} {cause : CountFault} {operand : Expr}
    (h : expectOne operands cause = .ok operand) : operands = [operand] := by
  unfold expectOne at h
  split at h
  · cases h
    rfl
  · cases h

/-- Operands where none are taken are none. -/
theorem expectNone_eq_ok {operands : List Expr} {cause : CountFault}
    (h : expectNone operands cause = .ok ()) : operands = [] := by
  unfold expectNone at h
  split at h
  case isTrue hempty => exact List.isEmpty_iff.mp hempty
  case isFalse => cases h

/-- A `.SEGMENT` creates a segment. -/
theorem segmentOperation_eq_ok {equates : Table Number} {operands : List Expr}
    {operation : Operation} (h : segmentOperation equates operands = .ok operation) :
    ∃ name start size fileOffset, operation = .createSegment name start size fileOffset := by
  unfold segmentOperation at h
  split at h
  case h_1 =>
    split at h
    case h_1 =>
      simp only [bind_eq_ok, pure_eq_ok] at h
      obtain ⟨start, -, size, -, fileOffset, -, rfl⟩ := h
      exact ⟨_, start, size, fileOffset, rfl⟩
    case h_2 => cases h
  case h_2 => cases h

namespace BuildState

variable {state next : BuildState} {location : Location} {operands : List Expr}

/-- A step that fails at a location succeeds alike. -/
theorem run_eq_ok {α : Type} {step : Except Fault α} {result : α} :
    state.run location step = .ok result ↔ step = .ok result :=
  mapError_eq_ok

/-! ## Names -/

/-- A name becomes global when it is neither global yet nor local. -/
theorem declareGlobals_cons {position : Nat} {operand : Expr} {rest : List Expr} :
    declareGlobals location position (operand :: rest) state = .ok next ↔
      ∃ name, operand = .name name ∧ name.ident ∉ state.globals ∧ isLocal name.ident = false ∧
        declareGlobals location (position + 1) rest
          (BuildState.add { state with globals := name.ident :: state.globals }
            (.setGlobal name.ident) location) = .ok next := by
  cases operand with
  | name name => simp [declareGlobals, refuse_eq_ok]
  | _ => simp [declareGlobals]

/-- An equate is defined under a name that is free and that no label has, and its number is the
value of what it stands for. -/
theorem defineEquate_eq_ok {name : String} {value : Expr} :
    state.defineEquate name value = .ok next ↔
      isLocal name = false ∧ name ∉ state.labels ∧
        nameFault? state.equates state.macros false name = none ∧
        ∃ bound number, bindEquates state.equates 0 none value = .ok bound ∧
          bound.closedValue = .ok number ∧
          next = { state with equates := state.equates.put name number } := by
  unfold defineEquate
  cases hfault : nameFault? state.equates state.macros false name with
  | some fault => simp [refuse_eq_ok]
  | none =>
    simp only [refuse_eq_ok, bind_eq_ok, Bool.not_eq_true, List.contains_eq_mem,
      decide_eq_false_iff_not, true_and]
    refine and_congr_right' (and_congr_right' (exists_congr fun bound => ?_))
    cases hvalue : bound.closedValue with
    | error cause => simp
    | ok number => simp [pure_eq_ok, @eq_comm _ next]

/-! ## Blocks -/

/-- A macro begins outside of every block, under a name that is free. -/
theorem beginMacro_eq_ok {label : Option (Spanned String)} {variadic : Bool} :
    state.beginMacro label variadic operands location = .ok next ↔
      ∃ found parameters, label = some found ∧ parameterNames operands = .ok parameters ∧
        nameFault? state.equates state.macros false found.node = none ∧ state.captures = [] ∧
        next = BuildState.enter
          { state with macros := state.macros.put found.node ⟨parameters, variadic, []⟩ }
          (.macroBody found.node [] location) := by
  cases label with
  | none => simp [beginMacro]
  | some found =>
    simp only [beginMacro, bind_eq_ok, Option.some.injEq, exists_and_left, exists_eq_left']
    refine exists_congr fun parameters => and_congr_right' ?_
    cases hfault : nameFault? state.equates state.macros false found.node with
    | some fault => simp
    | none => simp [demand_eq_ok, pure_eq_ok, @eq_comm _ next]

/-- A macro ends as the innermost block. -/
theorem endMacro_eq_ok :
    state.endMacro operands = .ok next ↔
      operands = [] ∧ ∃ name body opened rest,
        state.captures = .macroBody name body opened :: rest ∧
        next = { state with
          captures := rest
          macros :=
            state.macros.alter name fun definition => { definition with body := body } } := by
  constructor
  · intro h
    obtain ⟨hnone, h⟩ := refuse_eq_ok.mp h
    split at h
    case h_1 name body opened rest hcaptures =>
      cases h
      exact ⟨by simpa using hnone, name, body, opened, rest, hcaptures, rfl⟩
    case h_2 | h_3 => cases h
  · rintro ⟨rfl, name, body, opened, rest, hcaptures, rfl⟩
    simp [endMacro, hcaptures]

/-- An arm follows an arm with a condition. -/
theorem nextArm_eq_ok {condition : Option Expr} :
    state.nextArm condition location = .ok next ↔
      ∃ arms current body armLocation opened rest,
        state.captures = .conditional arms (some current) body armLocation opened :: rest ∧
        next = { state with
          captures := .conditional (arms ++ [ConditionalArm.mk (some current) body armLocation])
            condition [] location opened :: rest } := by
  constructor
  · intro h
    unfold nextArm at h
    split at h
    case h_1 arms current body armLocation opened rest hcaptures =>
      cases h
      exact ⟨arms, current, body, armLocation, opened, rest, hcaptures, rfl⟩
    case h_2 | h_3 | h_4 => cases h
  · rintro ⟨arms, current, body, armLocation, opened, rest, hcaptures, rfl⟩
    simp [nextArm, hcaptures]

/-- A conditional block ends as the innermost block. -/
theorem endConditional_eq_ok :
    state.endConditional = .ok next ↔
      ∃ arms condition body armLocation opened rest,
        state.captures = .conditional arms condition body armLocation opened :: rest ∧
        next = BuildState.append { state with captures := rest }
          (.conditional (arms ++ [ConditionalArm.mk condition body armLocation]) opened) := by
  constructor
  · intro h
    unfold endConditional at h
    split at h
    case h_1 arms condition body armLocation opened rest hcaptures =>
      cases h
      exact ⟨arms, condition, body, armLocation, opened, rest, hcaptures, rfl⟩
    case h_2 | h_3 => cases h
  · rintro ⟨arms, condition, body, armLocation, opened, rest, hcaptures, rfl⟩
    simp [endConditional, hcaptures]

/-- A loop ends as the innermost block. -/
theorem endLoop_eq_ok :
    state.endLoop = .ok next ↔
      ∃ body opened rest, state.captures = .argumentLoop body opened :: rest ∧
        next = BuildState.append { state with captures := rest } (.argumentLoop body opened) := by
  constructor
  · intro h
    unfold endLoop at h
    split at h
    case h_1 body opened rest hcaptures =>
      cases h
      exact ⟨body, opened, rest, hcaptures, rfl⟩
    case h_2 | h_3 => cases h
  · rintro ⟨body, opened, rest, hcaptures, rfl⟩
    simp [endLoop, hcaptures]

end BuildState

end Asm65816
