import Asm65816.Assembly
import Asm65816.Proofs.Outcome

/-!
# Assembling with and without a listing

Gathering a listing neither reads nor writes anything else. A walk that gathers one, with the
listing taken away at its end, is the walk that gathers none: the two fail with the same cause at
the same place, or come to the same layout.
-/

namespace Asm65816

namespace Emission

/-- The state of the second walk without its listing. -/
def unlisted (emission : Emission) : Emission := { emission with listing := none }

/-- The state as it is handed out, with a listing only if one is asked for. -/
def asked (listing : Bool) (emission : Emission) : Emission :=
  if listing then emission else emission.unlisted

/-- Taking a listing away keeps the layout. -/
@[simp] theorem asked_layout (listing : Bool) (emission : Emission) :
    (emission.asked listing).layout = emission.layout := by
  cases listing <;> rfl

/-- An operation has the same outcome with and without a listing. -/
theorem operation_unlisted (emission : Emission) (labels : List Resolution)
    (placed : PlacedOperation) (size : Nat) :
    (emission.operation labels placed size).map unlisted =
      emission.unlisted.operation labels placed size := by
  unfold Emission.operation
  rw [map_bind]
  refine bind_congr fun emitted => ?_
  dsimp only
  by_cases hsize : emitted.code.bytes.length ≠ size
  · rw [if_pos hsize, if_pos hsize]
    rfl
  · rw [if_neg hsize, if_neg hsize, map_bind]
    rfl

/-- The name of a macro is shown in the listing only. -/
theorem showCall_unlisted (emission : Emission) (call : Option String) :
    (emission.showCall call).unlisted = emission.unlisted.showCall call := by
  cases call <;> rfl

end Emission

mutual

/-- A step has the same outcome with and without a listing. -/
theorem emitStep_unlisted (labels : List Resolution) : ∀ (step : Step) (emission : Emission),
    (emitStep labels emission step).map Emission.unlisted =
      emitStep labels emission.unlisted step
  | .operation placed size location, emission => by
    simp only [emitStep, failingAt]
    rw [← emission.operation_unlisted, map_mapError]
  | .expansion call steps location, emission => by
    simp only [emitStep]
    rw [emitSteps_unlisted labels steps, Emission.showCall_unlisted]

/-- Steps have the same outcome with and without a listing. -/
theorem emitSteps_unlisted (labels : List Resolution) :
    ∀ (steps : List Step) (emission : Emission),
      (emitSteps labels emission steps).map Emission.unlisted =
        emitSteps labels emission.unlisted steps
  | [], emission => rfl
  | step :: rest, emission => by
    simp only [emitSteps]
    rw [← emitStep_unlisted labels step, map_bind, bind_map]
    exact bind_congr fun next => emitSteps_unlisted labels rest next

end

mutual

/-- A step gathers a listing exactly when one was gathered before it. -/
theorem emitStep_listing {labels : List Resolution} : ∀ {step : Step} {emission next : Emission},
    emitStep labels emission step = .ok next → next.listing.isSome = emission.listing.isSome
  | .operation placed size location, emission, next, h => by
    simp only [emitStep, failingAt_eq_ok, Emission.operation, bind_eq_ok, refuse_eq_ok,
      pure_eq_ok] at h
    obtain ⟨emitted, -, -, layout, -, rfl⟩ := h
    exact Option.isSome_map
  | .expansion call steps location, emission, next, h => by
    rw [emitSteps_listing h]
    cases call with
    | none => rfl
    | some name => exact Option.isSome_map

/-- Steps gather a listing exactly when one was gathered before them. -/
theorem emitSteps_listing {labels : List Resolution} :
    ∀ {steps : List Step} {emission last : Emission},
      emitSteps labels emission steps = .ok last →
        last.listing.isSome = emission.listing.isSome
  | [], emission, last, h => by
    cases h
    rfl
  | step :: rest, emission, last, h => by
    obtain ⟨next, hstep, hrest⟩ := bind_eq_ok.mp h
    rw [emitSteps_listing hrest, emitStep_listing hstep]

end

/-- Emitting a program without a listing is emitting it and taking the listing away. -/
theorem emitUnlisted_eq (layout : Layout) (labels : List Resolution) (steps : List Step) :
    emitUnlisted layout labels steps =
      (emitProgram layout labels steps).map Emission.unlisted :=
  (emitSteps_unlisted labels steps ⟨layout.rewind, some Listing.empty⟩).symm

/-- A program is emitted with a listing, which is taken away if none is asked for. -/
theorem Program.emit_eq (program : Program) (search : AssetSearch) (listing : Bool) :
    program.emit search listing = (program.emit search true).map (Emission.asked listing) := by
  unfold Program.emit
  rw [map_bind]
  refine bind_congr fun found => ?_
  dsimp only
  rw [map_bind]
  refine bind_congr fun labels => ?_
  cases listing with
  | true => cases emitProgram found.2 labels found.1 <;> rfl
  | false => exact emitUnlisted_eq _ _ _

/-- Emitting a program fails alike with and without a listing. -/
theorem Program.emit_eq_error {program : Program} {search : AssetSearch} {failure : Failure}
    (h : program.emit search true = .error failure) (listing : Bool) :
    program.emit search listing = .error failure := by
  rw [program.emit_eq, h]
  rfl

/-- A program that is emitted has a listing to show exactly when one is asked for. -/
theorem Program.emit_renderListing {program : Program} {search : AssetSearch} {listing : Bool}
    {emission : Emission} (h : program.emit search listing = .ok emission) :
    emission.renderListing.isSome = listing := by
  simp only [Program.emit, bind_eq_ok] at h
  obtain ⟨⟨steps, layout⟩, -, labels, -, h⟩ := h
  rw [Emission.renderListing, Option.isSome_map]
  cases listing with
  | true => exact emitSteps_listing h
  | false => exact emitSteps_listing h

/-! ## Whole assemblies -/

/-- An assembly succeeds exactly when its source is read, its program is built and the program is
emitted. -/
theorem assemble_eq_ok {search : AssetSearch} {main : SourceFile} {listing : Bool}
    {assembly : Assembly} :
    assemble search main listing = .ok assembly ↔
      ∃ source program emission, readSource 0 main.name main.text [] = .ok source ∧
        buildProgram search main source.lines = .ok program ∧
        program.emit search true = .ok emission ∧
        assembly = ⟨emission.segmentCode, (emission.asked listing).renderListing,
          source.warnings ++ program.warnings, program.sources⟩ := by
  simp only [assemble, assembleLines, bind_eq_ok, mapError_eq_ok, pure_eq_ok]
  constructor
  · rintro ⟨source, hread, found, ⟨program, hbuilt, emission, hemit, rfl⟩, rfl⟩
    rw [program.emit_eq, map_eq_ok] at hemit
    obtain ⟨emission, hemit, rfl⟩ := hemit
    refine ⟨source, program, emission, hread, hbuilt, hemit, ?_⟩
    simp only [Emission.segmentCode, Emission.asked_layout]
  · rintro ⟨source, program, emission, hread, hbuilt, hemit, rfl⟩
    refine ⟨source, hread, _, ⟨program, hbuilt, emission.asked listing, ?_, rfl⟩, ?_⟩
    · rw [program.emit_eq, hemit]
      rfl
    · simp only [Emission.segmentCode, Emission.asked_layout]

/-- A source that is read, built and emitted assembles to what was emitted. -/
theorem assemble_of_emit {search : AssetSearch} {main : SourceFile} {source : SourceLines}
    {program : Program} {emission : Emission} (listing : Bool)
    (hread : readSource 0 main.name main.text [] = .ok source)
    (hbuilt : buildProgram search main source.lines = .ok program)
    (hemit : program.emit search true = .ok emission) :
    assemble search main listing =
      .ok ⟨emission.segmentCode, (emission.asked listing).renderListing,
        source.warnings ++ program.warnings, program.sources⟩ :=
  assemble_eq_ok.mpr ⟨source, program, emission, hread, hbuilt, hemit, rfl⟩

/-- Asking for a listing never changes the result. Assembling lines with a listing and without one
fails with the same error, cause, location and sources included, or succeeds with the same segments,
warnings and sources; only the listing itself is there or is not. -/
theorem assembleLines_listing (search : AssetSearch) (main : SourceFile) (lines : List Line) :
    (∃ error, assembleLines search main lines true = .error error ∧
      assembleLines search main lines false = .error error) ∨
    ∃ listed plain, assembleLines search main lines true = .ok listed ∧
      assembleLines search main lines false = .ok plain ∧
      listed.segments = plain.segments ∧ listed.warnings = plain.warnings ∧
      listed.sources = plain.sources ∧ listed.listing.isSome = true ∧ plain.listing = none := by
  unfold assembleLines
  cases buildProgram search main lines with
  | error error => exact .inl ⟨⟨.failed error.failure, error.sources⟩, rfl, rfl⟩
  | ok program =>
    cases hlisted : program.emit search true with
    | error failure =>
      have hplain := Program.emit_eq_error hlisted false
      refine .inl ⟨⟨.failed failure, program.sources⟩, ?_, ?_⟩
      · exact bind_eq_error.mpr (.inr ⟨program, rfl,
          bind_eq_error.mpr (.inl (mapError_eq_error.mpr ⟨failure, hlisted, rfl⟩))⟩)
      · exact bind_eq_error.mpr (.inr ⟨program, rfl,
          bind_eq_error.mpr (.inl (mapError_eq_error.mpr ⟨failure, hplain, rfl⟩))⟩)
    | ok emission =>
      have hplain : program.emit search false = .ok emission.unlisted := by
        rw [program.emit_eq, hlisted]
        rfl
      refine .inr ⟨⟨emission.segmentCode, emission.renderListing, program.warnings,
        program.sources⟩, ⟨emission.segmentCode, none, program.warnings, program.sources⟩,
        ?_, ?_, rfl, rfl, rfl, Program.emit_renderListing hlisted, rfl⟩
      · exact bind_eq_ok.mpr ⟨program, rfl,
          bind_eq_ok.mpr ⟨emission, mapError_eq_ok.mpr hlisted, rfl⟩⟩
      · exact bind_eq_ok.mpr ⟨program, rfl,
          bind_eq_ok.mpr ⟨emission.unlisted, mapError_eq_ok.mpr hplain, rfl⟩⟩

end Asm65816
