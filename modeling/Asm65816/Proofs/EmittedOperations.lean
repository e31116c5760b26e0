import Asm65816.Proofs.Walk

/-!
# What the operations of the second walk emit

The second walk places the bytes of an operation and forgets the rest of what the operation emits:
the items for the listing and the register widths in effect. Here the operations of a walk are
gathered with all of it, in the order in which the walk comes to them.
-/

namespace Asm65816

/-- An operation of the second walk and what it emits. -/
structure EmittedOperation where
  operation : PlacedOperation
  emitted : Emitted

namespace EmittedOperation

/-- What the operation leaves in memory. -/
def deposit (entry : EmittedOperation) : Deposit := entry.emitted.deposit entry.operation

end EmittedOperation

/-- The operations among events that are taken one after the other, up to the first that fails. -/
def emittedAlong (labels : List Resolution) : Emission → List Event → List EmittedOperation
  | _, [] => []
  | emission, .operation placed size _ :: rest =>
    match emitOperation labels emission.layout placed, emission.operation labels placed size with
    | .ok emitted, .ok next => ⟨placed, emitted⟩ :: emittedAlong labels next rest
    | _, _ => []
  | emission, .enter call _ :: rest => emittedAlong labels (emission.showCall call) rest
  | emission, .leave _ :: rest => emittedAlong labels emission rest

section Walks

variable {labels : List Resolution}

/-- The operation that a walk takes first comes first. -/
theorem emittedAlong_operation {emission next : Emission} {placed : PlacedOperation} {size : Nat}
    {emitted : Emitted} (location : Location) (rest : List Event)
    (hemits : emitOperation labels emission.layout placed = .ok emitted)
    (htaken : emission.operation labels placed size = .ok next) :
    emittedAlong labels emission (.operation placed size location :: rest) =
      ⟨placed, emitted⟩ :: emittedAlong labels next rest := by
  simp only [emittedAlong, hemits, htaken]

/-- The deposits of a walk are those of its operations. -/
theorem SecondWalk.deposits_eq {emission last : Emission} {events : List Event}
    {deposits : List Deposit} (walk : SecondWalk labels emission events deposits last) :
    deposits = (emittedAlong labels emission events).map EmittedOperation.deposit := by
  induction walk with
  | done emission => rfl
  | operation emits taken rest ih =>
    rw [emittedAlong_operation _ _ emits taken, List.map_cons, ← ih]
    rfl
  | enter rest ih => exact ih
  | leave rest ih => exact ih

/-- Every operation of a walk is emitted in a state that the walk comes to. -/
theorem SecondWalk.exists_of_mem {emission last : Emission} {events : List Event}
    {deposits : List Deposit} {entry : EmittedOperation}
    (walk : SecondWalk labels emission events deposits last)
    (h : entry ∈ emittedAlong labels emission events) :
    ∃ before size location after reached,
      events = before ++ .operation entry.operation size location :: after ∧
      emitEvents labels emission before = .ok reached ∧
      emitOperation labels reached.layout entry.operation = .ok entry.emitted := by
  induction walk with
  | done emission => cases h
  | @operation emission next last placed size location emitted events deposits emits taken rest
      ih =>
    rw [emittedAlong_operation _ _ emits taken] at h
    rcases List.mem_cons.mp h with rfl | hrest
    · exact ⟨[], size, location, events, emission, rfl, rfl, emits⟩
    · obtain ⟨before, size', location', after, reached, rfl, hbefore, hemits⟩ := ih hrest
      refine ⟨.operation placed size location :: before, size', location', after, reached, rfl,
        ?_, hemits⟩
      exact bind_eq_ok.mpr ⟨next, failingAt_eq_ok.mpr taken, hbefore⟩
  | @enter emission last call location events deposits rest ih =>
    obtain ⟨before, size, location', after, reached, rfl, hbefore, hemits⟩ := ih h
    exact ⟨.enter call location :: before, size, location', after, reached, rfl, hbefore, hemits⟩
  | @leave emission last location events deposits rest ih =>
    obtain ⟨before, size, location', after, reached, rfl, hbefore, hemits⟩ := ih h
    exact ⟨.leave location :: before, size, location', after, reached, rfl, hbefore, hemits⟩

end Walks

namespace AssemblyRun

variable {search : AssetSearch} {main : SourceFile}

/-- The operations of an assembly with what they emit. -/
def operations (run : AssemblyRun search main) : List EmittedOperation :=
  emittedAlong run.labels (Emission.initial run.layout) (stepEvents run.steps)

/-- The deposits of an assembly are those of its operations. -/
theorem deposits_eq (run : AssemblyRun search main) :
    run.deposits = run.operations.map EmittedOperation.deposit :=
  run.emitted.deposits_eq

end AssemblyRun

end Asm65816
