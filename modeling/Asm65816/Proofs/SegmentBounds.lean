import Asm65816.Proofs.Coverage
import Asm65816.Proofs.Reached

/-!
# The range of a segment

No byte of a segment lies behind its end: code that would run past it is refused. The other end is
not guarded. Code is placed from the start of a segment up, unless an origin below the start is
asked for; then code follows from there, and no byte lies below all origins and the start.
-/

namespace Asm65816

/-- Where code of a segment may lie in view of the operations emitted into it: from its start up,
or from an origin below it. -/
def Supported (deposits : List Deposit) (key : String) (start address : Int) : Prop :=
  start ≤ address ∨ ∃ deposit ∈ depositsIn key deposits, ∃ origin,
    deposit.operation = .setOrigin origin ∧ origin < start ∧ origin ≤ address

namespace Supported

variable {deposits : List Deposit} {key : String} {start address : Int}

/-- Code may go on upward. -/
theorem upward {later : Int} (h : Supported deposits key start address) (hle : address ≤ later) :
    Supported deposits key start later := by
  rcases h with hstart | ⟨deposit, hdeposit, origin, horigin, hbelow, horiginle⟩
  · exact .inl (by omega)
  · exact .inr ⟨deposit, hdeposit, origin, horigin, hbelow, by omega⟩

/-- Further operations take nothing away. -/
theorem append (h : Supported deposits key start address) (deposit : Deposit) :
    Supported (deposits ++ [deposit]) key start address := by
  refine h.imp id fun ⟨found, hfound, horigin⟩ => ⟨found, ?_, horigin⟩
  rw [depositsIn, List.filter_append]
  exact List.mem_append_left _ hfound

/-- Code may go on from an origin. -/
theorem origin {deposit : Deposit} {target : Int} (hkey : deposit.segment = some key)
    (horigin : deposit.operation = .setOrigin target) :
    Supported (deposits ++ [deposit]) key start target := by
  by_cases hstart : start ≤ target
  · exact .inl hstart
  · refine .inr ⟨deposit, ?_, target, horigin, by omega, Int.le_refl _⟩
    exact List.mem_filter.mpr ⟨List.mem_append_right _ (List.mem_singleton_self _),
      decide_eq_true hkey⟩

end Supported

/-- Operations whose bytes lie in the ranges of their segments. -/
structure Layout.Bounds (layout : Layout) (deposits : List Deposit) : Prop where
  below : ∀ key segment deposit, layout.segments.get? key = some segment →
    deposit ∈ depositsIn key deposits → deposit.bytes ≠ [] →
      deposit.address + deposit.bytes.length ≤ segment.limit
  above : ∀ key segment deposit, layout.segments.get? key = some segment →
    deposit ∈ depositsIn key deposits → deposit.bytes ≠ [] →
      Supported deposits key segment.start deposit.address
  resume : ∀ key segment, layout.segments.get? key = some segment →
    Supported deposits key segment.start segment.resume
  cursor : ∀ key segment, layout.current = some key → layout.segments.get? key = some segment →
    Supported deposits key segment.start layout.address

namespace Layout.Bounds

variable {layout there next : Layout} {deposits : List Deposit} {deposit : Deposit}

/-- Before the second walk every segment goes on at its start. -/
theorem initial (final : Layout) : Bounds final.rewind [] := by
  refine ⟨by simp [depositsIn], by simp [depositsIn], fun key segment h => ?_, by simp [rewind]⟩
  have hget := Table.get?_map final.segments
    (fun segment : Segment => { segment.clear with resume := segment.start }) key
  rw [show Table.get? final.rewind.segments key = _ from hget] at h
  obtain ⟨found, -, rfl⟩ := Option.map_eq_some_iff.mp h
  exact .inl (Int.le_refl _)

/-- The operations in a segment after a further one. -/
theorem mem_depositsIn_append {key : String} {found : Deposit}
    (h : found ∈ depositsIn key (deposits ++ [deposit])) :
    found ∈ depositsIn key deposits ∨ found = deposit ∧ deposit.segment = some key := by
  rw [depositsIn, List.filter_append, List.mem_append] at h
  refine h.imp id fun hlast => ?_
  obtain ⟨hmem, hkey⟩ := List.mem_filter.mp hlast
  obtain rfl := List.mem_singleton.mp hmem
  exact ⟨rfl, of_decide_eq_true hkey⟩

/-- An operation that writes nothing where it goes to. -/
theorem append_nil (h : Bounds layout deposits) (hsegments : there.segments = layout.segments)
    (hcursor : ∀ key segment, there.current = some key → layout.segments.get? key = some segment →
      Supported (deposits ++ [deposit]) key segment.start there.address)
    (hbytes : deposit.bytes = []) : Bounds there (deposits ++ [deposit]) := by
  have hold {key : String} {found : Deposit}
      (hfound : found ∈ depositsIn key (deposits ++ [deposit])) (hnonempty : found.bytes ≠ []) :
      found ∈ depositsIn key deposits := by
    rcases mem_depositsIn_append hfound with hmem | ⟨rfl, -⟩
    · exact hmem
    · exact absurd hbytes hnonempty
  refine ⟨?_, ?_, ?_, ?_⟩
  all_goals rw [hsegments]
  · intro key segment found hsegment hfound hnonempty
    exact h.below key segment found hsegment (hold hfound hnonempty) hnonempty
  · intro key segment found hsegment hfound hnonempty
    exact (h.above key segment found hsegment (hold hfound hnonempty) hnonempty).append deposit
  · intro key segment hsegment
    exact (h.resume key segment hsegment).append deposit
  · exact hcursor

/-- An operation that writes bytes where it goes to, which the segment has room for. -/
theorem append_place (h : Bounds layout deposits) (hsegments : there.segments = layout.segments)
    (hcursor : ∀ key segment, there.current = some key → layout.segments.get? key = some segment →
      Supported (deposits ++ [deposit]) key segment.start there.address)
    (hbytes : deposit.bytes ≠ []) (hsegment : deposit.segment = there.current)
    (haddress : deposit.address = there.address) (hplace : there.place deposit.bytes = .ok next) :
    Bounds next (deposits ++ [deposit]) := by
  obtain ⟨current, segment, written, hcurrent, -, hget, hroom, hmoved⟩ :=
    place_eq_ok hbytes hplace
  obtain ⟨hname, hfound⟩ := requireSegment_eq_ok.mp hcurrent
  rw [hsegments] at hget hfound
  have hnext : next.current = some current := (congrArg Cursor.current hmoved).trans hname
  have hbehind : next.address = there.address + deposit.bytes.length :=
    congrArg Cursor.address hmoved
  have hhere := hcursor current segment hname hfound
  -- The segment of the operation keeps its range and goes on behind the bytes.
  have hown {key : String} (hkey : deposit.segment = some key) : current = key :=
    Option.some.inj (hname.symm.trans (hsegment.symm.trans hkey))
  refine ⟨?_, ?_, ?_, ?_⟩
  · intro key stored found hstored hmem hnonempty
    rw [hget key] at hstored
    rcases mem_depositsIn_append hmem with hmem | ⟨rfl, hkey⟩
    · split at hstored
      case isTrue hcase =>
        subst hcase
        obtain rfl := Option.some.inj hstored
        exact h.below current segment found hfound hmem hnonempty
      case isFalse => exact h.below key stored found hstored hmem hnonempty
    · rw [if_pos (hown hkey)] at hstored
      obtain rfl := Option.some.inj hstored
      rw [haddress]
      exact hroom
  · intro key stored found hstored hmem hnonempty
    rw [hget key] at hstored
    rcases mem_depositsIn_append hmem with hmem | ⟨rfl, hkey⟩
    · split at hstored
      case isTrue hcase =>
        subst hcase
        obtain rfl := Option.some.inj hstored
        exact (h.above current segment found hfound hmem hnonempty).append deposit
      case isFalse => exact (h.above key stored found hstored hmem hnonempty).append deposit
    · obtain rfl := hown hkey
      rw [if_pos rfl] at hstored
      obtain rfl := Option.some.inj hstored
      rw [haddress]
      exact hhere
  · intro key stored hstored
    rw [hget key] at hstored
    split at hstored
    case isTrue hcase =>
      subst hcase
      obtain rfl := Option.some.inj hstored
      exact hhere.upward (by dsimp only; omega)
    case isFalse => exact (h.resume key stored hstored).append deposit
  · intro key stored hkey hstored
    obtain rfl : current = key := Option.some.inj (hnext.symm.trans hkey)
    rw [hget current, if_pos rfl] at hstored
    obtain rfl := Option.some.inj hstored
    rw [hbehind]
    exact hhere.upward (by omega)

/-- Going to the place of an operation keeps to where code may lie. -/
theorem enters {placed : PlacedOperation} (h : Bounds layout deposits)
    (henters : placed.Enters layout there) (hoperation : deposit.operation = placed)
    (hsegment : deposit.segment = there.current) {key : String} {segment : Segment}
    (hcurrent : there.current = some key) (hfound : layout.segments.get? key = some segment) :
    Supported (deposits ++ [deposit]) key segment.start there.address := by
  cases placed with
  | changeSegment name =>
    obtain ⟨entered, hentered, rfl⟩ := enter_eq_ok.mp henters
    obtain rfl : upperText name = key := Option.some.inj hcurrent
    obtain rfl := Option.some.inj (hentered.symm.trans hfound)
    exact (h.resume _ _ hentered).append deposit
  | setOrigin address =>
    obtain rfl := henters
    exact .origin (hsegment.trans hcurrent) hoperation
  | setWidth register wide =>
    obtain rfl := henters
    cases register
    all_goals exact (h.cursor key segment hcurrent hfound).append deposit
  | _ =>
    obtain rfl := henters
    exact (h.cursor key segment hcurrent hfound).append deposit

end Layout.Bounds

/-- One operation of the second walk keeps to the ranges. -/
theorem Layout.Bounds.operation {emission next : Emission} {labels : List Resolution}
    {placed : PlacedOperation} {size : Nat} {emitted : Emitted} {deposits : List Deposit}
    (h : emission.layout.Bounds deposits)
    (hemits : emitOperation labels emission.layout placed = .ok emitted)
    (htaken : emission.operation labels placed size = .ok next) :
    next.layout.Bounds (deposits ++ [emitted.deposit placed]) := by
  obtain ⟨found, hfound, -, layout, hplace, rfl⟩ := operation_eq_ok.mp htaken
  obtain rfl : emitted = found := Except.ok.inj (hemits.symm.trans hfound)
  have henters := emitOperation_enters hemits
  have hsegments := Layout.enters_segments henters
  have hcursor (key : String) (segment : Segment) (hcurrent : emitted.layout.current = some key)
      (hsegment : emission.layout.segments.get? key = some segment) :
      Supported (deposits ++ [emitted.deposit placed]) key segment.start emitted.layout.address :=
    h.enters henters rfl rfl hcurrent hsegment
  by_cases hbytes : emitted.code.bytes = []
  · rw [hbytes, Layout.place_nil] at hplace
    obtain rfl := Except.ok.inj hplace
    exact h.append_nil hsegments hcursor hbytes
  · exact h.append_place hsegments hcursor hbytes rfl rfl hplace

/-! ## Whole programs -/

/-- Every byte of a segment lies below its end, and not below its start unless an origin does. -/
theorem AssemblyRun.mem_range {search : AssetSearch} {main : SourceFile}
    (run : AssemblyRun search main) {key : String} {segment : Segment} {chunk : Chunk}
    {address : Int} (hsegment : run.emission.layout.segments.get? key = some segment)
    (hchunk : chunk ∈ segment.chunks) (hlow : chunk.start ≤ address)
    (hhigh : address < chunk.start + chunk.bytes.length) :
    address < segment.limit ∧ Supported run.deposits key segment.start address := by
  have hbounds : run.emission.layout.Bounds run.deposits :=
    run.emitted.invariant Layout.Bounds.operation (.initial run.layout)
  have hfilled : run.emission.layout.Filled run.deposits :=
    run.emitted.filled (.initial run.layout)
  obtain ⟨byte, hcell⟩ := exists_mem_cellsFrom hlow hhigh
  have hcells := (hfilled.faithful hsegment).cells.mem_iff.mp
    (List.mem_flatMap.mpr ⟨chunk, hchunk, hcell⟩)
  obtain ⟨deposit, hdeposit, hmem⟩ := List.mem_flatMap.mp hcells
  obtain ⟨hfrom, hto⟩ := mem_cellsFrom_bounds hmem
  dsimp only at hfrom hto
  have hbytes : deposit.bytes ≠ [] := by
    intro hnil
    rw [hnil, List.length_nil] at hto
    omega
  have hbelow := hbounds.below key segment deposit hsegment hdeposit hbytes
  exact ⟨by omega, (hbounds.above key segment deposit hsegment hdeposit hbytes).upward hfrom⟩

/-- A program that comes to an operation for which the current segment has no room is not laid
out. -/
theorem layoutProgram_full {environment : Environment} {actions : List Action} {found mid : Layout}
    {calls : List MacroCall} {operation : Operation} {location : Location} {others : List Task}
    {placed : PlacedOperation} {size : Nat} {key : String} {segment : Segment}
    (hwalk : WalksTo environment Layout.empty (bodyTasks [] actions) found
      (.action calls (.operation operation location) :: others))
    (hplaced : placeOperation environment calls location found operation = .ok (placed, size, mid))
    (hsize : 0 < size) (hcurrent : mid.requireSegment = .ok (key, segment))
    (hfull : segment.limit < mid.address + size) :
    ∃ failure, layoutProgram environment actions = .error failure := by
  cases hlayout : layoutProgram environment actions with
  | error failure => exact ⟨failure, rfl⟩
  | ok result =>
    obtain ⟨steps, layout⟩ := result
    obtain ⟨event, next, more, advanced⟩ := layoutProgram_advances hlayout hwalk
    simp only [Task.advance, bind_eq_ok, failingAt_eq_ok] at advanced
    obtain ⟨⟨placed', size', mid'⟩, hplaced', reached, hreached, -⟩ := advanced
    have hsame := Except.ok.inj (hplaced.symm.trans hplaced')
    simp only [Prod.mk.injEq] at hsame
    obtain ⟨rfl, rfl, rfl⟩ := hsame
    -- The walk would have to move on behind the end of the segment.
    dsimp only at hreached
    rw [Layout.occupy, if_neg (by omega)] at hreached
    obtain ⟨key', segment', hcurrent', hroom, -⟩ := Layout.advance_eq_ok.mp hreached
    have hsegment := Except.ok.inj (hcurrent.symm.trans hcurrent')
    obtain ⟨rfl, rfl⟩ := Prod.mk.inj hsegment
    omega

/-- A segment contains its bytes: its end is guarded, its start is not. In an assembly that succeeds
every address of every chunk lies below the end of its segment, and not below its start unless an
operation of the segment asks for an origin below the start; then it is not below that origin. A
program that comes to an operation which would run past the end of the segment fails. -/
theorem segment_contains (search : AssetSearch) (main : SourceFile) (listing : Bool) :
    (∀ assembly, assemble search main listing = .ok assembly →
      ∃ run : AssemblyRun search main, assembly.segments = run.emission.segmentCode ∧
        ∀ name code, (name, code) ∈ assembly.segments →
          ∃ key segment, run.emission.layout.segments.get? key = some segment ∧
            name = lowerText segment.name ∧ code = segment.code ∧
            ∀ chunk ∈ code.chunks, ∀ address, chunk.start ≤ address →
              address < chunk.start + chunk.bytes.length →
                address < code.start + code.size ∧
                  (code.start ≤ address ∨ ∃ deposit ∈ depositsIn key run.deposits, ∃ origin,
                    deposit.operation = .setOrigin origin ∧ origin < code.start ∧
                      origin ≤ address)) ∧
    ∀ source program found calls operation location others placed size mid key segment,
      readSource 0 main.name main.text [] = .ok source →
      buildProgram search main source.lines = .ok program →
      WalksTo (program.environment search) Layout.empty (bodyTasks [] program.actions) found
        (.action calls (.operation operation location) :: others) →
      placeOperation (program.environment search) calls location found operation =
        .ok (placed, size, mid) →
      0 < size → mid.requireSegment = .ok (key, segment) → segment.limit < mid.address + size →
        ∃ failure, assemble search main listing = .error ⟨.failed failure, program.sources⟩ := by
  constructor
  · intro assembly h
    obtain ⟨run, hsegments⟩ := assemble_run h
    refine ⟨run, hsegments, ?_⟩
    intro name code hcode
    obtain ⟨key, segment, hsegment, hname, rfl⟩ := run.exists_segment (hsegments ▸ hcode)
    refine ⟨key, segment, hsegment, hname, rfl, ?_⟩
    intro chunk hchunk address hlow hhigh
    exact run.mem_range hsegment hchunk hlow hhigh
  · intro source program found calls operation location others placed size mid key segment hread
      hbuilt hwalk hplaced hsize hcurrent hfull
    obtain ⟨failure, hfailure⟩ := layoutProgram_full hwalk hplaced hsize hcurrent hfull
    exact ⟨failure, assemble_eq_error_of_emit hread hbuilt (bind_eq_error.mpr (.inl hfailure))⟩

/-- Code at the start of a segment and at an origin inside it. -/
theorem segment_contains_inside :
    ∃ main : SourceFile,
      main.text = " .segment \"c\",0x8000,9,0\n .c\n nop\n .org 0x8004\n nop\n" ∧
      ∃ assembly, assemble ⟨.ofTable [], []⟩ main false = .ok assembly ∧
        ∀ name code, (name, code) ∈ assembly.segments → ∀ chunk ∈ code.chunks,
          ∀ address, chunk.start ≤ address → address < chunk.start + chunk.bytes.length →
            address < code.start + code.size := by
  refine ⟨⟨"inside.s", _⟩, rfl, (exists_of_isOk ?_).imp fun assembly h => ⟨h, ?_⟩⟩
  · decide +kernel
  · obtain ⟨run, -, hcontains⟩ := (segment_contains _ _ _).1 assembly h
    intro name code hcode chunk hchunk address hlow hhigh
    obtain ⟨key, segment, -, -, -, hrange⟩ := hcontains name code hcode
    exact (hrange chunk hchunk address hlow hhigh).1

/-- A program that runs past the end of a segment fails. -/
example : (match assemble ⟨.ofTable [], []⟩
      ⟨"full.s", " .segment \"c\",0x8000,1,0\n .c\n nop\n nop\n"⟩ false with
    | .error ⟨.failed ⟨.segmentOverflow name, _⟩, _⟩ => some name
    | _ => none) = some "c" := by
  decide +kernel

/-- Whether a segment has code that begins below its start. -/
def SegmentCode.beginsBelow (code : SegmentCode) : Bool :=
  code.chunks.any fun chunk => decide (chunk.start < code.start) && !chunk.bytes.isEmpty

/-- Code that begins below the start is outside the range of its segment. -/
theorem SegmentCode.exists_of_beginsBelow {code : SegmentCode} (h : code.beginsBelow = true) :
    ∃ chunk ∈ code.chunks, ∃ address, chunk.start ≤ address ∧
      address < chunk.start + chunk.bytes.length ∧
      ¬(code.start ≤ address ∧ address < code.start + code.size) := by
  obtain ⟨chunk, hchunk, h⟩ := List.any_eq_true.mp h
  simp only [Bool.and_eq_true, decide_eq_true_eq, Bool.not_eq_true', List.isEmpty_eq_false_iff,
    ← List.length_pos_iff] at h
  exact ⟨chunk, hchunk, chunk.start, Int.le_refl _, by omega, by omega⟩

/-- An origin below the start of a segment is taken, and code is placed there. -/
theorem segment_strays_below :
    ∃ main : SourceFile, main.text = " .segment \"c\",0x8000,9,0\n .c\n .org 0x7000\n nop\n" ∧
      ∃ assembly, assemble ⟨.ofTable [], []⟩ main false = .ok assembly ∧
        ∃ name code, (name, code) ∈ assembly.segments ∧ ∃ chunk ∈ code.chunks,
          ∃ address, chunk.start ≤ address ∧ address < chunk.start + chunk.bytes.length ∧
            ¬(code.start ≤ address ∧ address < code.start + code.size) := by
  refine ⟨⟨"below.s", _⟩, rfl, (exists_ok_of_any
    (fun assembly => assembly.segments.any fun entry => entry.2.beginsBelow) ?_).imp
      fun assembly h => ⟨h.1, ?_⟩⟩
  · decide +kernel
  · obtain ⟨⟨name, code⟩, hcode, hbelow⟩ := List.any_eq_true.mp h.2
    exact ⟨name, code, hcode, SegmentCode.exists_of_beginsBelow hbelow⟩

end Asm65816
