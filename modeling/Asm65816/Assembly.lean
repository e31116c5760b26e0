import Asm65816.Diagnostic.Report
import Asm65816.Program.Emission

/-!
# Assembling a program

A source is read, its statements are turned into actions, the actions are laid out, the labels
are resolved, and the bytes are emitted. Each of these steps either fails with reports about the
sources read so far or hands its result to the next.
-/

namespace Asm65816

/-- The code of one segment, as it goes into an output file. -/
structure SegmentCode where
  start : Int
  size : Int
  /-- Where the segment lies in the output image; negative when it is no part of it. -/
  fileOffset : Int
  chunks : List Chunk
  deriving DecidableEq, Repr, Inhabited

/-- Why an assembly fails. -/
inductive AssemblyFault where
  /-- The main source cannot be read as lines, with the reports on it. -/
  | unreadable (reports : List Diagnostic)
  | failed (failure : Failure)
  deriving Repr

/-- An assembly that failed, and the sources that its reports are about. -/
structure AssemblyError where
  fault : AssemblyFault
  sources : Sources

namespace AssemblyError

/-- The reports on a failed assembly. -/
def reports (error : AssemblyError) : List Diagnostic :=
  match error.fault with
  | .unreadable reports => reports
  | .failed failure => failure.reports

/-- The reports as they are printed. -/
def render (error : AssemblyError) : String :=
  Diagnostic.reportAll error.sources error.reports

/-- Whether the assembly did not fail but stopped at a trap. -/
def isTrap (error : AssemblyError) : Bool :=
  match error.fault with
  | .failed ⟨.eval .trap, _⟩ => true
  | _ => false

end AssemblyError

/-- A finished assembly. -/
structure Assembly where
  /-- The segments by name in lower case, ordered by their start. -/
  segments : Table SegmentCode
  /-- The listing, when one was asked for. -/
  listing : Option String
  warnings : List Diagnostic
  sources : Sources

namespace Assembly

/-- The warnings as they are printed. -/
def renderWarnings (assembly : Assembly) : String :=
  Diagnostic.reportAll assembly.sources assembly.warnings

end Assembly

namespace Layout

/-- The segments by ascending start; segments of one start stay in the order of creation. -/
def orderedSegments (layout : Layout) : Table Segment :=
  layout.segments.mergeSort fun first second => decide (first.2.start ≤ second.2.start)

end Layout

/-- The code of a segment. -/
def Segment.code (segment : Segment) : SegmentCode :=
  ⟨segment.start, segment.size, segment.fileOffset, segment.chunks⟩

namespace Emission

/-- The code of all segments by name in lower case. -/
def segmentCode (emission : Emission) : Table SegmentCode :=
  .ofList (emission.layout.orderedSegments.map fun (_, segment) =>
    (lowerText segment.name, segment.code))

/-- The listing, if one was gathered, with the segments in the order of their starts. -/
def renderListing (emission : Emission) : Option String :=
  emission.listing.map fun listing =>
    listing.render (emission.layout.orderedSegments.map Prod.fst)

end Emission

/-- Lays a program out, resolves its labels and emits it. -/
def Program.emit (program : Program) (search : AssetSearch) (listing : Bool) :
    Except Failure Emission := do
  let environment : Environment := ⟨program.macros, program.equates, search⟩
  let (steps, layout) ← layoutProgram environment program.actions
  let labels ← layout.resolveAll
  if listing then emitProgram layout labels steps else emitUnlisted layout labels steps

/-- Assembles the lines of a main source. -/
def assembleLines (search : AssetSearch) (main : SourceFile) (lines : List Line)
    (listing : Bool) : Except AssemblyError Assembly := do
  let program ← (buildProgram search main lines).mapError fun error =>
    AssemblyError.mk (.failed error.failure) error.sources
  let emission ← (program.emit search listing).mapError fun failure =>
    AssemblyError.mk (.failed failure) program.sources
  return {
    segments := emission.segmentCode
    listing := emission.renderListing
    warnings := program.warnings
    sources := program.sources }

/-- Assembles a main source. -/
def assemble (search : AssetSearch) (main : SourceFile) (listing : Bool) :
    Except AssemblyError Assembly := do
  let read ← (readSource 0 main.name main.text []).mapError fun reports =>
    AssemblyError.mk (.unreadable reports) [main]
  let assembly ← assembleLines search main read.lines listing
  return { assembly with warnings := read.warnings ++ assembly.warnings }

end Asm65816
