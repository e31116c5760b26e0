import Asm65816.Proofs.PlacedBytes
import Asm65816.Proofs.SegmentNames

/-!
# No byte is lost, duplicated or overwritten

Throughout the second walk the bytes of a segment are those of the operations emitted into it so
far, which lie apart from each other. An operation that would write an address again does not get
past it: the walk fails at the lowest such address.
-/

namespace Asm65816

namespace Deposit

/-- The bytes of an operation with their addresses. -/
def cells (deposit : Deposit) : List (Int × UInt8) := cellsFrom deposit.address deposit.bytes

/-- Whether a byte of an operation lies at an address. -/
def Covers (deposit : Deposit) (address : Int) : Prop :=
  deposit.address ≤ address ∧ address < deposit.address + deposit.bytes.length

/-- The addresses of an operation are those of its cells. -/
theorem covers_iff {deposit : Deposit} {address : Int} :
    deposit.Covers address ↔ ∃ byte, (address, byte) ∈ deposit.cells := by
  constructor
  · rintro ⟨hlow, hhigh⟩
    exact exists_mem_cellsFrom hlow hhigh
  · rintro ⟨byte, hmem⟩
    exact mem_cellsFrom_bounds hmem

/-- Two operations in different segments or without a common address. -/
def Apart (first second : Deposit) : Prop :=
  first.segment = second.segment → ∀ address, ¬(first.Covers address ∧ second.Covers address)

/-- An operation without bytes covers nothing. -/
theorem not_covers_of_nil {deposit : Deposit} (h : deposit.bytes = []) (address : Int) :
    ¬deposit.Covers address := by
  rintro ⟨hlow, hhigh⟩
  rw [h, List.length_nil] at hhigh
  omega

end Deposit

/-- The operations emitted into the segment found under `key`. -/
def depositsIn (key : String) (deposits : List Deposit) : List Deposit :=
  deposits.filter fun deposit => deposit.segment = some key

/-- A further operation adds its cells to its own segment. -/
theorem cells_depositsIn_append (key : String) (deposits : List Deposit) (deposit : Deposit) :
    (depositsIn key (deposits ++ [deposit])).flatMap Deposit.cells =
      (depositsIn key deposits).flatMap Deposit.cells ++
        if deposit.segment = some key then deposit.cells else [] := by
  rw [depositsIn, List.filter_append, List.flatMap_append, depositsIn]
  by_cases hkey : deposit.segment = some key
  · rw [List.filter_cons_of_pos (by simpa using hkey), if_pos hkey, List.filter_nil,
      List.flatMap_singleton]
  · rw [List.filter_cons_of_neg (by simpa using hkey), if_neg hkey, List.filter_nil,
      List.flatMap_nil]

/-- The segments of a layout hold the bytes of the deposits and no others. -/
structure Layout.Filled (layout : Layout) (deposits : List Deposit) : Prop where
  cells : ∀ key segment, layout.segments.get? key = some segment →
    segment.bytes.cells.Perm ((depositsIn key deposits).flatMap Deposit.cells)
  apart : deposits.Pairwise Deposit.Apart
  owned : ∀ deposit ∈ deposits, deposit.bytes ≠ [] →
    ∃ key segment, deposit.segment = some key ∧ layout.segments.get? key = some segment

/-- An operation writes an address that one before it has written in the same segment. -/
def Clashes (deposits : List Deposit) (deposit : Deposit) (address : Int) : Prop :=
  deposit.Covers address ∧
    ∃ earlier ∈ deposits, earlier.segment = deposit.segment ∧ earlier.Covers address

namespace Layout

/-- What a successful placement of bytes does to the segments, which have room for them. -/
theorem place_eq_ok {layout next : Layout} {bytes : List UInt8} (hbytes : bytes ≠ [])
    (h : layout.place bytes = .ok next) :
    ∃ key segment written, layout.requireSegment = .ok (key, segment) ∧
      segment.bytes.write layout.address bytes = (written, none) ∧
      (∀ other, next.segments.get? other =
        if key = other then
          some { segment with bytes := written, resume := layout.address + bytes.length }
        else layout.segments.get? other) ∧
      layout.address + bytes.length ≤ segment.limit ∧
      next.cursor = { layout.cursor with address := layout.address + bytes.length } := by
  have hcurrent : ∃ found, layout.requireSegment = .ok found := by
    unfold place at h
    rw [if_neg (by simpa using hbytes)] at h
    obtain ⟨found, hfound, -⟩ := bind_eq_ok.mp h
    exact ⟨found, hfound⟩
  obtain ⟨⟨key, segment⟩, hcurrent⟩ := hcurrent
  obtain ⟨hname, hsegment⟩ := requireSegment_eq_ok.mp hcurrent
  rw [place_eq hbytes hcurrent] at h
  cases hwrite : segment.bytes.write layout.address bytes with
  | mk written clash =>
    cases clash with
    | some taken => simp only [hwrite, reduceCtorEq] at h
    | none =>
      simp only [hwrite] at h
      obtain ⟨found, stored, hstored, hroom, rfl⟩ := advance_eq_ok.mp h
      obtain ⟨hfound, hget⟩ := requireSegment_eq_ok.mp hstored
      obtain rfl : key = found := Option.some.inj (hname.symm.trans hfound)
      rw [get?_setSegment, if_pos rfl, hsegment, Option.map_some, Option.some.injEq] at hget
      subst hget
      refine ⟨key, segment, written, hcurrent, hwrite, fun other => ?_, hroom, rfl⟩
      change (Layout.setSegment (layout.setSegment key _) key _).segments.get? other = _
      rw [get?_setSegment, get?_setSegment]
      split
      case isTrue hkey =>
        rw [← hkey, hsegment]
        rfl
      case isFalse => rfl

/-- Going to the place of an operation does not change the segments. -/
theorem enters_segments {layout next : Layout} {placed : PlacedOperation}
    (h : placed.Enters layout next) : next.segments = layout.segments := by
  cases placed with
  | changeSegment name =>
    obtain ⟨segment, -, rfl⟩ := enter_eq_ok.mp h
    rfl
  | setWidth register wide =>
    obtain rfl := h
    cases register
    · rfl
    · rfl
  | _ =>
    obtain rfl := h
    rfl

namespace Filled

variable {layout next : Layout} {deposits : List Deposit} {deposit : Deposit}

/-- Before the second walk nothing is written. -/
theorem initial (final : Layout) : Filled final.rewind [] := by
  refine ⟨fun key segment h => ?_, .nil, by simp⟩
  have hget := Table.get?_map final.segments
    (fun segment : Segment => { segment.clear with resume := segment.start }) key
  rw [show Table.get? final.rewind.segments key = _ from hget] at h
  obtain ⟨found, -, rfl⟩ := Option.map_eq_some_iff.mp h
  exact .refl _

/-- The addresses taken in a segment are those that operations in it cover. -/
theorem taken_iff (h : Filled layout deposits) {key : String} {segment : Segment}
    (hsegment : layout.segments.get? key = some segment) {address : Int} :
    segment.bytes.Taken address ↔
      ∃ earlier ∈ deposits, earlier.segment = some key ∧ earlier.Covers address := by
  have hperm := h.cells key segment hsegment
  constructor
  · rintro ⟨byte, hmem⟩
    obtain ⟨earlier, hearlier, hcell⟩ := List.mem_flatMap.mp (hperm.mem_iff.mp hmem)
    obtain ⟨hdeposit, hkey⟩ := List.mem_filter.mp hearlier
    exact ⟨earlier, hdeposit, of_decide_eq_true hkey, Deposit.covers_iff.mpr ⟨byte, hcell⟩⟩
  · rintro ⟨earlier, hdeposit, hkey, hcovers⟩
    obtain ⟨byte, hcell⟩ := Deposit.covers_iff.mp hcovers
    refine ⟨byte, hperm.mem_iff.mpr (List.mem_flatMap.mpr ⟨earlier, ?_, hcell⟩)⟩
    exact List.mem_filter.mpr ⟨hdeposit, decide_eq_true hkey⟩

/-- An operation without bytes changes nothing. -/
theorem append_nil (h : Filled layout deposits) (hbytes : deposit.bytes = [])
    (hnext : next.segments = layout.segments) : Filled next (deposits ++ [deposit]) := by
  have hcells : deposit.cells = [] := by rw [Deposit.cells, hbytes, cellsFrom]
  refine ⟨fun key segment hsegment => ?_, ?_, fun found hfound hnonempty => ?_⟩
  · rw [hnext] at hsegment
    rw [cells_depositsIn_append, hcells, ite_self, List.append_nil]
    exact h.cells key segment hsegment
  · refine List.pairwise_append.mpr ⟨h.apart, List.pairwise_singleton _ _, ?_⟩
    intro earlier _ later hlater _ address hboth
    obtain rfl := List.mem_singleton.mp hlater
    exact Deposit.not_covers_of_nil hbytes address hboth.2
  · rcases List.mem_append.mp hfound with hold | hnew
    · rw [hnext]
      exact h.owned found hold hnonempty
    · obtain rfl := List.mem_singleton.mp hnew
      exact absurd hbytes hnonempty

/-- An operation whose bytes are placed adds them to its segment. -/
theorem append_place (h : Filled layout deposits) (hbytes : deposit.bytes ≠ [])
    (hsegment : deposit.segment = layout.current) (haddress : deposit.address = layout.address)
    (hplace : layout.place deposit.bytes = .ok next) : Filled next (deposits ++ [deposit]) := by
  obtain ⟨current, segment, written, hcurrent, hwrite, hget, -, -⟩ := place_eq_ok hbytes hplace
  obtain ⟨hname, hfound⟩ := requireSegment_eq_ok.mp hcurrent
  obtain ⟨hperm, hfree⟩ := ByteMap.write_perm hwrite
  rw [← haddress] at hperm hfree
  have hkey : deposit.segment = some current := hsegment.trans hname
  refine ⟨fun key stored hstored => ?_, ?_, fun found hmem hnonempty => ?_⟩
  · rw [hget key] at hstored
    rw [cells_depositsIn_append, hkey]
    by_cases hcase : current = key
    · rw [if_pos hcase] at hstored
      obtain rfl := Option.some.inj hstored
      have hold := h.cells current segment hfound
      rw [hcase] at hold
      rw [if_pos (congrArg some hcase)]
      exact hperm.trans (List.perm_append_comm.trans (hold.append_right _))
    · rw [if_neg hcase] at hstored
      rw [if_neg fun heq => hcase (Option.some.inj heq), List.append_nil]
      exact h.cells key stored hstored
  · refine List.pairwise_append.mpr ⟨h.apart, List.pairwise_singleton _ _, ?_⟩
    intro earlier hearlier later hlater hsame address hboth
    obtain rfl := List.mem_singleton.mp hlater
    have htaken := (h.taken_iff hfound).mpr ⟨earlier, hearlier, hsame.trans hkey, hboth.1⟩
    exact hfree address hboth.2.1 hboth.2.2 htaken
  · have hkept (key : String) (stored : Segment)
        (hstored : layout.segments.get? key = some stored) :
        ∃ later, next.segments.get? key = some later := by
      rw [hget key]
      split
      · exact ⟨_, rfl⟩
      · exact ⟨stored, hstored⟩
    rcases List.mem_append.mp hmem with hold | hnew
    · obtain ⟨key, stored, howner, hstored⟩ := h.owned found hold hnonempty
      obtain ⟨later, hlater⟩ := hkept key stored hstored
      exact ⟨key, later, howner, hlater⟩
    · obtain rfl := List.mem_singleton.mp hnew
      obtain ⟨later, hlater⟩ := hkept current segment hfound
      exact ⟨current, later, hkey, hlater⟩

/-- Only the segments count. -/
theorem of_segments (h : Filled layout deposits) (hnext : next.segments = layout.segments) :
    Filled next deposits := by
  refine ⟨fun key segment hsegment => ?_, h.apart, ?_⟩
  · exact h.cells key segment (hnext ▸ hsegment)
  · rw [hnext]
    exact h.owned

/-- An operation that clashes cannot be placed, and its fault names the lowest clash. -/
theorem place_clash (h : Filled layout deposits) (hsegment : deposit.segment = layout.current)
    (haddress : deposit.address = layout.address) {address : Int}
    (hclash : Clashes deposits deposit address) :
    ∃ key segment taken, layout.current = some key ∧ layout.segments.get? key = some segment ∧
      layout.place deposit.bytes = .error (.byteOverlap segment.name taken) ∧
      Clashes deposits deposit taken ∧ ∀ lower < taken, ¬Clashes deposits deposit lower := by
  obtain ⟨hcovers, earlier, hearlier, hsame, hbefore⟩ := hclash
  have hnonempty : earlier.bytes ≠ [] := fun hnil => Deposit.not_covers_of_nil hnil _ hbefore
  have hbytes : deposit.bytes ≠ [] := fun hnil => Deposit.not_covers_of_nil hnil _ hcovers
  obtain ⟨key, segment, hkey, hfound⟩ := h.owned earlier hearlier hnonempty
  have hdeposit : deposit.segment = some key := hsame.symm.trans hkey
  have hcurrent : layout.current = some key := hsegment.symm.trans hdeposit
  have hclashes (target : Int) (htarget : deposit.Covers target) :
      segment.bytes.Taken target ↔ Clashes deposits deposit target := by
    rw [h.taken_iff hfound, Clashes, hdeposit]
    exact ⟨fun htaken => ⟨htarget, htaken⟩, fun hclash => hclash.2⟩
  have htaken := (hclashes address hcovers).mpr ⟨hcovers, earlier, hearlier, hsame, hbefore⟩
  have hplace := place_eq hbytes (requireSegment_eq_ok.mpr ⟨hcurrent, hfound⟩)
  rw [← haddress] at hplace
  cases hwrite : segment.bytes.write deposit.address deposit.bytes with
  | mk written clash =>
    cases clash with
    | none =>
      obtain ⟨-, hfree⟩ := ByteMap.write_perm hwrite
      exact absurd htaken (hfree address hcovers.1 hcovers.2)
    | some taken =>
      simp only [hwrite] at hplace
      obtain ⟨hlow, hhigh, htaken, hleast⟩ := ByteMap.write_clash hwrite
      refine ⟨key, segment, taken, hcurrent, hfound, hplace,
        (hclashes taken ⟨hlow, hhigh⟩).mp htaken, fun lower hlower hclash => ?_⟩
      exact hleast lower hclash.1.1 hlower ((hclashes lower hclash.1).mpr hclash)

end Filled

end Layout

/-- One operation of the second walk adds its bytes to its segment. -/
theorem Layout.Filled.operation {emission next : Emission} {labels : List Resolution}
    {placed : PlacedOperation} {size : Nat} {emitted : Emitted} {deposits : List Deposit}
    (h : emission.layout.Filled deposits)
    (hemits : emitOperation labels emission.layout placed = .ok emitted)
    (htaken : emission.operation labels placed size = .ok next) :
    next.layout.Filled (deposits ++ [emitted.deposit placed]) := by
  obtain ⟨found, hfound, -, layout, hplace, rfl⟩ := operation_eq_ok.mp htaken
  obtain rfl : emitted = found := Except.ok.inj (hemits.symm.trans hfound)
  have hsegments := Layout.enters_segments (emitOperation_enters hemits)
  have hthere : emitted.layout.Filled deposits := h.of_segments hsegments
  by_cases hbytes : emitted.code.bytes = []
  · rw [hbytes, Layout.place_nil] at hplace
    obtain rfl := Except.ok.inj hplace
    exact hthere.append_nil hbytes rfl
  · exact hthere.append_place hbytes rfl rfl hplace

/-- The second walk fills the segments with the bytes of its operations. -/
theorem SecondWalk.filled {labels : List Resolution} {emission last : Emission}
    {events : List Event} {before deposits : List Deposit}
    (walk : SecondWalk labels emission events deposits last)
    (h : emission.layout.Filled before) : last.layout.Filled (before ++ deposits) :=
  walk.invariant Layout.Filled.operation h

/-! ## Whole programs -/

/-- Code whose runs are separated and hold exactly the bytes of the operations in a segment, which
do not touch each other. -/
structure FaithfulCode (code : SegmentCode) (deposits : List Deposit) : Prop where
  runs : SeparatedRuns code.chunks
  cells : (code.chunks.flatMap Chunk.cells).Perm (deposits.flatMap Deposit.cells)
  disjoint : deposits.Pairwise fun earlier later =>
    ∀ address, ¬(earlier.Covers address ∧ later.Covers address)

/-- The code of a segment is faithful to the operations in it. -/
theorem Layout.Filled.faithful {layout : Layout} {deposits : List Deposit} {key : String}
    {segment : Segment} (h : layout.Filled deposits)
    (hsegment : layout.segments.get? key = some segment) :
    FaithfulCode segment.code (depositsIn key deposits) := by
  obtain ⟨hruns, hcells⟩ := segment.bytes.chunks_runs
  refine ⟨hruns, ?_, ?_⟩
  · change (segment.bytes.chunks.flatMap Chunk.cells).Perm _
    rw [hcells]
    exact (List.reverse_perm _).trans (h.cells key segment hsegment)
  · have hhere : (depositsIn key deposits).Pairwise Deposit.Apart :=
      h.apart.sublist List.filter_sublist
    refine hhere.imp_of_mem fun hearlier hlater hapart => hapart ?_
    have hfirst := of_decide_eq_true (List.mem_filter.mp hearlier).2
    have hsecond := of_decide_eq_true (List.mem_filter.mp hlater).2
    exact hfirst.trans hsecond.symm

/-- Segments with names in ASCII are handed out under these names. -/
theorem AssemblyRun.segmentCode_get? {search : AssetSearch} {main : SourceFile}
    (run : AssemblyRun search main)
    (hascii : ∀ key segment, run.emission.layout.segments.get? key = some segment →
      IsAscii segment.name) {name : String} {code : SegmentCode} :
    run.emission.segmentCode.get? name = some code ↔
      ∃ key segment, run.emission.layout.segments.get? key = some segment ∧
        name = lowerText segment.name ∧ code = segment.code :=
  Emission.mem_segmentCode run.indexed fun entry hentry =>
    hascii entry.1 entry.2 (Table.get?_of_mem run.indexed.distinct hentry)

/-- The segments of an assembly are those of its second walk, each under its own name and with the
bytes of the operations in it. -/
theorem AssemblyRun.faithful {search : AssetSearch} {main : SourceFile}
    (run : AssemblyRun search main)
    (hascii : ∀ key segment, run.emission.layout.segments.get? key = some segment →
      IsAscii segment.name) :
    (∀ key segment, run.emission.layout.segments.get? key = some segment →
      ∃ code, run.emission.segmentCode.get? (lowerText segment.name) = some code ∧
        FaithfulCode code (depositsIn key run.deposits)) ∧
    (∀ name code, run.emission.segmentCode.get? name = some code →
      ∃ key segment, run.emission.layout.segments.get? key = some segment ∧
        name = lowerText segment.name) ∧
    ∀ deposit ∈ run.deposits, deposit.bytes ≠ [] →
      ∃ key segment, deposit.segment = some key ∧
        run.emission.layout.segments.get? key = some segment := by
  have hfilled : run.emission.layout.Filled run.deposits :=
    run.emitted.filled (.initial run.layout)
  refine ⟨fun key segment hsegment => ?_, fun name code hfound => ?_, hfilled.owned⟩
  · have hcode := (run.segmentCode_get? hascii).mpr ⟨key, segment, hsegment, rfl, rfl⟩
    exact ⟨segment.code, hcode, hfilled.faithful hsegment⟩
  · obtain ⟨key, segment, hsegment, hname, -⟩ := (run.segmentCode_get? hascii).mp hfound
    exact ⟨key, segment, hsegment, hname⟩

/-- A program that reaches an operation whose bytes clash with those before it is not emitted: the
fault names the segment and the lowest address that would be written twice. -/
theorem emitProgram_clash {environment : Environment} {actions : List Action} {steps : List Step}
    {layout : Layout} {labels : List Resolution} {before after : List Event}
    {placed : PlacedOperation} {size : Nat} {location : Location} {deposits : List Deposit}
    {emission : Emission} {emitted : Emitted} {address : Int}
    (hlayout : layoutProgram environment actions = .ok (steps, layout))
    (hevents : stepEvents steps = before ++ .operation placed size location :: after)
    (hbefore : SecondWalk labels (Emission.initial layout) before deposits emission)
    (hemits : emitOperation labels emission.layout placed = .ok emitted)
    (hclash : Clashes deposits (emitted.deposit placed) address) :
    ∃ key segment taken, emitted.layout.current = some key ∧
      emission.layout.segments.get? key = some segment ∧
      emitProgram layout labels steps = .error ⟨.byteOverlap segment.name taken, location⟩ ∧
      Clashes deposits (emitted.deposit placed) taken ∧
      ∀ lower < taken, ¬Clashes deposits (emitted.deposit placed) lower := by
  have hfilled : emission.layout.Filled deposits := hbefore.filled (.initial layout)
  have hsegments := Layout.enters_segments (emitOperation_enters hemits)
  obtain ⟨key, segment, taken, hkey, hsegment, hplace, htaken, hleast⟩ :=
    (hfilled.of_segments hsegments).place_clash rfl rfl hclash
  rw [hsegments] at hsegment
  refine ⟨key, segment, taken, hkey, hsegment, ?_, htaken, hleast⟩
  -- The operation has its size, so that the clash is what it fails with.
  have hsize : emitted.code.bytes.length = size := by
    obtain ⟨-, trace, htrace, walk⟩ := layoutProgram_firstWalk hlayout
    have hmem : Event.operation placed size location ∈ trace.map Prod.snd := by
      rw [htrace, hevents]
      simp
    obtain ⟨⟨found, event⟩, hfound, rfl⟩ := List.mem_map.mp hmem
    rw [emitOperation_length hemits, walk.size_eq_length hfound]
  have hoperation : emission.operation labels placed size =
      .error (.byteOverlap segment.name taken) := by
    refine bind_eq_error.mpr (.inr ⟨emitted, hemits, ?_⟩)
    rw [hsize, if_neg (not_not_intro rfl)]
    exact bind_eq_error.mpr (.inl hplace)
  rw [emitProgram_eq_emitEvents, hevents, emitEvents_append]
  refine bind_eq_error.mpr (.inr ⟨emission, emitEvents_eq_ok.mpr ⟨deposits, hbefore⟩, ?_⟩)
  rw [emitEvents, List.foldlM_cons]
  exact bind_eq_error.mpr (.inl (failingAt_eq_error.mpr ⟨hoperation, rfl⟩))

/-- No emitted byte is lost, duplicated or overwritten. When an assembly of segments with names in
ASCII succeeds, every segment is handed out with exactly the bytes of the operations emitted into
it, in separated runs, and no operation with bytes is left out; and a program that reaches an
operation which clashes with those before it fails at the lowest clash. -/
theorem assemble_bytes (search : AssetSearch) (main : SourceFile) (listing : Bool) :
    (∀ assembly, assemble search main listing = .ok assembly →
      ∃ run : AssemblyRun search main, assembly.segments = run.emission.segmentCode ∧
        ((∀ key segment, run.emission.layout.segments.get? key = some segment →
            IsAscii segment.name) →
          (∀ key segment, run.emission.layout.segments.get? key = some segment →
            ∃ code, assembly.segments.get? (lowerText segment.name) = some code ∧
              FaithfulCode code (depositsIn key run.deposits)) ∧
          (∀ name code, assembly.segments.get? name = some code →
            ∃ key segment, run.emission.layout.segments.get? key = some segment ∧
              name = lowerText segment.name) ∧
          ∀ deposit ∈ run.deposits, deposit.bytes ≠ [] →
            ∃ key segment, deposit.segment = some key ∧
              run.emission.layout.segments.get? key = some segment)) ∧
    ∀ environment actions steps layout labels before after placed size location deposits emission
      emitted address, layoutProgram environment actions = .ok (steps, layout) →
      stepEvents steps = before ++ .operation placed size location :: after →
      SecondWalk labels (Emission.initial layout) before deposits emission →
      emitOperation labels emission.layout placed = .ok emitted →
      Clashes deposits (emitted.deposit placed) address →
        ∃ key segment taken, emitted.layout.current = some key ∧
          emission.layout.segments.get? key = some segment ∧
          emitProgram layout labels steps = .error ⟨.byteOverlap segment.name taken, location⟩ ∧
          Clashes deposits (emitted.deposit placed) taken ∧
          ∀ lower < taken, ¬Clashes deposits (emitted.deposit placed) lower := by
  constructor
  · intro assembly h
    obtain ⟨run, hsegments⟩ := assemble_run h
    refine ⟨run, hsegments, fun hascii => ?_⟩
    rw [hsegments]
    exact run.faithful hascii
  · intro environment actions steps layout labels before after placed size location deposits
      emission emitted address hlayout hevents hbefore hemits hclash
    exact emitProgram_clash hlayout hevents hbefore hemits hclash

/-- One run through a main source decides whether it assembles with all names of segments in
ASCII. -/
theorem exists_assembly_ascii {search : AssetSearch} {main : SourceFile} {listing : Bool}
    (h : (emissionOf search main).any fun emission =>
      emission.layout.segments.all fun entry => decide (IsAscii entry.2.name)) :
    ∃ assembly, assemble search main listing = .ok assembly ∧
      ∀ (run : AssemblyRun search main) (key : String) (segment : Segment),
        run.emission.layout.segments.get? key = some segment → IsAscii segment.name := by
  obtain ⟨emission, hemission, hascii⟩ := (Option.any_eq_true _ _).mp h
  obtain ⟨assembly, hassembly⟩ := assemble_of_emissionOf listing hemission
  refine ⟨assembly, hassembly, fun run key segment hsegment => ?_⟩
  obtain rfl : run.emission = emission :=
    Option.some.inj (run.emissionOf_eq.symm.trans hemission)
  have hentries := List.all_eq_true.mp hascii
  exact of_decide_eq_true (hentries (key, segment) (Table.mem_of_get? hsegment))

/-- A program that goes back and forth between two segments, one of them with a gap. -/
theorem assemble_bytes_interleaved :
    ∃ main : SourceFile, main.text = " .segment \"code\", 0x8000, 0x100, 0\n" ++
        " .segment \"Data\", 0x100, 0x10, 0x100\n .code\n nop\n .data\n .db 1, 2\n .code\n" ++
        " .org 0x8004\n inx\n .org 0x8001\n dex\n" ∧
      ∃ assembly, assemble ⟨.ofTable [], []⟩ main false = .ok assembly ∧
        ∃ run : AssemblyRun ⟨.ofTable [], []⟩ main,
          ∀ key segment, run.emission.layout.segments.get? key = some segment →
            ∃ code, assembly.segments.get? (lowerText segment.name) = some code ∧
              FaithfulCode code (depositsIn key run.deposits) := by
  refine ⟨⟨"interleaved.s", _⟩, rfl,
    (exists_assembly_ascii ?_).imp fun assembly found => ⟨found.1, ?_⟩⟩
  · decide +kernel
  · obtain ⟨h, hascii⟩ := found
    obtain ⟨run, -, hfaithful⟩ := (assemble_bytes _ _ _).1 assembly h
    exact ⟨run, (hfaithful (hascii run)).1⟩

/-- A program that goes back to an address it has written, and fails there. -/
example : (match assemble ⟨.ofTable [], []⟩ ⟨"twice.s", " .segment \"code\", 0x8000, 0x100, 0\n" ++
      " .code\n .db 1, 2\n .org 0x8001\n .db 3, 4\n"⟩ false with
    | .error ⟨.failed ⟨.byteOverlap name taken, _⟩, _⟩ => some (name, taken)
    | _ => none) = some ("code", 0x8001) := by
  decide +kernel

end Asm65816
