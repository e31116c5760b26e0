import Asm65816.Proofs.CodeRows
import Asm65816.Proofs.Coverage
import Asm65816.Proofs.KeyOrder
import Asm65816.Proofs.PreparedOperands

/-!
# A listing shows exactly the emitted bytes

The rows of a segment, block by block, are the rows of the operations emitted into it, in the order
in which they were emitted; blocks are opened between operations and put into another order at the
end, and neither loses or repeats a row. As every operation shows the bytes it places, the rows of
a segment hold each of its bytes exactly once.
-/

namespace Asm65816

/-! ## The rows of a listing -/

namespace ListingBlock

/-- The parts of a block. -/
def parts (block : ListingBlock) : List ListingPart := block.items.flatMap ListingItem.parts

/-- The rows of a block. -/
def rows (block : ListingBlock) : List ListingRow := block.items.flatMap ListingItem.rows

/-- The rows of a block are those among its parts. -/
theorem filterMap_parts (block : ListingBlock) :
    block.parts.filterMap ListingPart.row? = block.rows :=
  List.filterMap_flatMap

/-- A block is shown part by part. -/
theorem render_eq (block : ListingBlock) :
    block.render = String.join (block.parts.map ListingPart.text) := by
  rw [render, parts]
  induction block.items with
  | nil => rfl
  | cons item rest ih =>
    rw [List.map_cons, String.join_cons, ih, item.render_eq, List.flatMap_cons, List.map_append,
      String.join_append]

end ListingBlock

namespace Listing

/-- The rows of a segment, block by block in the order in which the blocks were opened. -/
def rows (listing : Listing) (segment : String) : List ListingRow :=
  (listing.blocks segment).flatMap ListingBlock.rows

/-- The parts of segments one after the other, the blocks of each by ascending address. -/
def shown (listing : Listing) (order : List String) : List ListingPart :=
  order.flatMap fun segment => (listing.orderedBlocks segment).flatMap ListingBlock.parts

/-- The rows that are shown are those of the blocks of the segments. -/
theorem filterMap_shown (listing : Listing) (order : List String) :
    (listing.shown order).filterMap ListingPart.row? =
      order.flatMap fun segment => (listing.orderedBlocks segment).flatMap ListingBlock.rows := by
  simp only [shown, List.filterMap_flatMap, ListingBlock.filterMap_parts]

/-- Segments that come once are shown in their order. -/
theorem render_eq (listing : Listing) {order : List String} (h : order.Nodup) :
    listing.render order =
      listing.header ++ String.join ((listing.shown order).map ListingPart.text) := by
  have hblocks (blocks : List ListingBlock) : String.join (blocks.map ListingBlock.render) =
      String.join ((blocks.flatMap ListingBlock.parts).map ListingPart.text) := by
    induction blocks with
    | nil => rfl
    | cons block rest ih =>
      rw [List.map_cons, String.join_cons, ih, block.render_eq, List.flatMap_cons,
        List.map_append, String.join_append]
  have horder : order.eraseDups = order := by
    induction order with
    | nil => rfl
    | cons first rest ih =>
      obtain ⟨hfirst, hrest⟩ := List.nodup_cons.mp h
      have hkeep : (rest.filter fun other => !other == first) = rest :=
        List.filter_eq_self.mpr fun other hother => by
          have hne : other ≠ first := fun heq => hfirst (heq ▸ hother)
          simpa using hne
      rw [List.eraseDups_cons, hkeep, ih hrest]
  rw [render, horder, hblocks, List.flatMap_assoc, shown]

/-- Sorting the blocks of a segment keeps them all. -/
theorem orderedBlocks_perm (listing : Listing) (segment : String) :
    (listing.orderedBlocks segment).Perm (listing.blocks segment) :=
  List.mergeSort_perm _ _

/-- The blocks of a segment are shown by ascending address. -/
theorem orderedBlocks_pairwise (listing : Listing) (segment : String) :
    (listing.orderedBlocks segment).Pairwise fun first second =>
      first.address ≤ second.address :=
  pairwise_mergeSort_on ListingBlock.address _

/-- An item comes behind all rows of its segment. -/
theorem flatMap_rows_extendLast (address : Int) (item : ListingItem) (blocks : List ListingBlock) :
    (extendLast address item blocks).flatMap ListingBlock.rows =
      blocks.flatMap ListingBlock.rows ++ item.rows := by
  fun_induction extendLast address item blocks with
  | case1 => simp [ListingBlock.rows]
  | case2 block => simp [ListingBlock.rows]
  | case3 block rest _ ih => rw [List.flatMap_cons, ih, List.flatMap_cons, List.append_assoc]

/-- Opening a block adds no row. -/
theorem rows_openBlock (listing : Listing) (segment key : String) (address : Int) :
    (listing.openBlock segment address).rows key = listing.rows key := by
  unfold rows openBlock blocks
  rw [Table.get?_put]
  by_cases hkey : segment = key
  · rw [if_pos hkey, hkey, Option.getD_some, List.flatMap_append]
    exact List.append_nil _
  · rw [if_neg hkey]

/-- An item adds its rows to its segment. -/
theorem rows_addItem (listing : Listing) (segment key : String) (address : Int)
    (item : ListingItem) :
    (listing.addItem segment address item).rows key =
      listing.rows key ++ if segment = key then item.rows else [] := by
  unfold rows addItem blocks
  rw [Table.get?_put]
  by_cases hkey : segment = key
  · rw [if_pos hkey, if_pos hkey, hkey, Option.getD_some, flatMap_rows_extendLast]
  · rw [if_neg hkey, if_neg hkey, List.append_nil]

/-- Items add their rows to their segment in order. -/
theorem rows_foldl_addItem (listing : Listing) (segment key : String) (address : Int)
    (items : List ListingItem) :
    (items.foldl (fun listing item => listing.addItem segment address item) listing).rows key =
      listing.rows key ++ if segment = key then items.flatMap ListingItem.rows else [] := by
  induction items generalizing listing with
  | nil => simp
  | cons item rest ih =>
    rw [List.foldl_cons, ih, rows_addItem, List.append_assoc, List.flatMap_cons]
    split <;> simp

/-- An operation adds its rows to the segment that it is emitted into. -/
theorem rows_record (listing : Listing) (emitted : Emitted) (key : String) :
    (listing.record emitted).rows key = listing.rows key ++
      if emitted.layout.current = some key then emitted.code.rows else [] := by
  unfold record
  cases hcurrent : emitted.layout.current with
  | none => simp [addHeader, rows, blocks]
  | some segment =>
    have hopened : (if emitted.opensBlock then
        (listing.addHeader emitted.header).openBlock segment emitted.layout.address
        else listing.addHeader emitted.header).rows key = listing.rows key := by
      split
      · rw [rows_openBlock]
        rfl
      · rfl
    simp only [rows_foldl_addItem, hopened, Option.some.injEq, Code.rows]

end Listing

/-! ## The rows of a walk -/

/-- The operations emitted into the segment found under `key`. -/
def operationsIn (key : String) (operations : List EmittedOperation) : List EmittedOperation :=
  operations.filter fun entry => entry.emitted.layout.current = some key

/-- The rows of operations in the order in which they are emitted. -/
def generatedRows (operations : List EmittedOperation) : List ListingRow :=
  operations.flatMap fun entry => entry.emitted.code.rows

/-- The rows of an operation and of those behind it. -/
theorem generatedRows_operationsIn_cons (key : String) (entry : EmittedOperation)
    (rest : List EmittedOperation) :
    generatedRows (operationsIn key (entry :: rest)) =
      (if entry.emitted.layout.current = some key then entry.emitted.code.rows else []) ++
        generatedRows (operationsIn key rest) := by
  by_cases hkey : entry.emitted.layout.current = some key
  · rw [operationsIn, List.filter_cons_of_pos (by simpa using hkey), if_pos hkey]
    exact List.flatMap_cons
  · rw [operationsIn, List.filter_cons_of_neg (by simpa using hkey), if_neg hkey]
    rfl

/-- A walk that gathers a listing adds the rows of its operations to it, in order. -/
theorem SecondWalk.listing_rows {labels : List Resolution} {emission last : Emission}
    {events : List Event} {deposits : List Deposit} {listing : Listing}
    (walk : SecondWalk labels emission events deposits last)
    (h : emission.listing = some listing) :
    ∃ final, last.listing = some final ∧ ∀ key, final.rows key = listing.rows key ++
      generatedRows (operationsIn key (emittedAlong labels emission events)) := by
  induction walk generalizing listing with
  | done emission => exact ⟨listing, h, fun key => (List.append_nil _).symm⟩
  | @operation emission next last placed size location emitted events deposits emits taken rest
      ih =>
    obtain ⟨found, hfound, -, layout, -, hnext⟩ := operation_eq_ok.mp taken
    obtain rfl : emitted = found := Except.ok.inj (emits.symm.trans hfound)
    have hlisting : next.listing = some (listing.record emitted) := by
      rw [hnext, h]
      rfl
    obtain ⟨final, hfinal, hrows⟩ := ih hlisting
    refine ⟨final, hfinal, fun key => ?_⟩
    rw [hrows, Listing.rows_record, emittedAlong_operation _ _ emits taken,
      generatedRows_operationsIn_cons, List.append_assoc]
  | @enter emission last call location events deposits rest ih =>
    cases call with
    | none => exact ih h
    | some name =>
      -- The name of a macro is shown in a line without bytes.
      have hshown : (emission.showCall (some name)).listing =
          some (listing.record (.remark emission.layout (";; " ++ name))) := by
        simp only [Emission.showCall, h, Option.map_some]
      obtain ⟨final, hfinal, hrows⟩ := ih hshown
      refine ⟨final, hfinal, fun key => ?_⟩
      rw [hrows, Listing.rows_record]
      have hremark : (Emitted.remark emission.layout (";; " ++ name)).code.rows = [] := rfl
      rw [hremark, ite_self, List.append_nil]
      rfl
  | leave rest ih => exact ih h

namespace AssemblyRun

variable {search : AssetSearch} {main : SourceFile}

/-- Every operation of an assembly shows its bytes where it places them. -/
theorem shownAt (run : AssemblyRun search main) {entry : EmittedOperation}
    (h : entry ∈ run.operations) :
    entry.emitted.code.ShownAt entry.emitted.layout.address := by
  obtain ⟨location, second, hreached, hemits⟩ := run.reached_of_mem h
  apply emitOperation_shownAt hemits
  intro encoding hencoding
  rw [hencoding] at hreached
  obtain ⟨calls, operation, found, others, -, ⟨mnemonic, operands, -, -, -, haddress⟩, hcursor⟩ :=
    hreached.stemsFrom
  exact haddress.trans (congrArg Cursor.address hcursor).symm

/-- The rows of the operations in a segment hold the bytes of its deposits. -/
theorem cells_generatedRows (run : AssemblyRun search main) (key : String) :
    (generatedRows (operationsIn key run.operations)).flatMap ListingRow.cells =
      (depositsIn key run.deposits).flatMap Deposit.cells := by
  have hdeposits : depositsIn key run.deposits =
      (operationsIn key run.operations).map EmittedOperation.deposit := by
    rw [run.deposits_eq, depositsIn, List.filter_map]
    rfl
  have hshown : ∀ entry ∈ operationsIn key run.operations,
      entry.emitted.code.rows.flatMap ListingRow.cells = entry.deposit.cells :=
    fun entry hentry => (run.shownAt (List.mem_filter.mp hentry).1).cells
  rw [hdeposits, generatedRows, List.flatMap_assoc, List.flatMap_map]
  rw [List.flatMap_def, List.flatMap_def, List.map_congr_left hshown]

/-- The lines of the rows of the operations show their addresses and bytes. -/
theorem legible_generatedRows (run : AssemblyRun search main) (key : String) :
    ∀ row ∈ generatedRows (operationsIn key run.operations), row.Legible := by
  intro row hrow
  obtain ⟨entry, hentry, hmem⟩ := List.mem_flatMap.mp hrow
  exact (run.shownAt (List.mem_filter.mp hentry).1).legible row hmem

end AssemblyRun

/-! ## Whole assemblies -/

/-- Rows that hold every byte of a segment exactly once, and nothing else. -/
structure ShowsCode (rows : List ListingRow) (code : SegmentCode) : Prop where
  cells : (rows.flatMap ListingRow.cells).Perm (code.chunks.flatMap Chunk.cells)
  once : ((rows.flatMap ListingRow.cells).map Prod.fst).Nodup

/-- How the text of a listing shows the rows of operations: the segments come one after the other,
the blocks of each by ascending address, and the rows of its blocks, taken in the order in which the
blocks were opened, are those of the operations in the order in which they were emitted. The line of
each row can be read: it shows the address and the bytes. -/
structure Listing.ShowsIn (listing : Listing) (order : List String)
    (operations : List EmittedOperation) (text : String) : Prop where
  distinct : order.Nodup
  text : text = listing.header ++ String.join ((listing.shown order).map ListingPart.text)
  rows : (listing.shown order).filterMap ListingPart.row? =
    order.flatMap fun key => (listing.orderedBlocks key).flatMap ListingBlock.rows
  blocks : ∀ key, (listing.orderedBlocks key).Perm (listing.blocks key)
  ascending : ∀ key, (listing.orderedBlocks key).Pairwise fun first second =>
    first.address ≤ second.address
  generated : ∀ key, (listing.blocks key).flatMap ListingBlock.rows =
    generatedRows (operationsIn key operations)
  legible : ∀ row ∈ (listing.shown order).filterMap ListingPart.row?, row.Legible

/-- The rows that are shown are rows of some segment. -/
theorem Listing.mem_rows_of_shown {listing : Listing} {order : List String} {row : ListingRow}
    (h : row ∈ (listing.shown order).filterMap ListingPart.row?) :
    ∃ key, row ∈ listing.rows key := by
  rw [filterMap_shown] at h
  obtain ⟨key, -, hrow⟩ := List.mem_flatMap.mp h
  exact ⟨key, ((listing.orderedBlocks_perm key).flatMap_right _).mem_iff.mp hrow⟩

/-- The addresses of a segment's cells are different. -/
theorem Segment.cells_nodup (segment : Segment) :
    ((segment.code.chunks.flatMap Chunk.cells).map Prod.fst).Nodup := by
  obtain ⟨-, hcells⟩ := segment.bytes.chunks_runs
  change ((segment.bytes.chunks.flatMap Chunk.cells).map Prod.fst).Nodup
  rw [hcells, List.map_reverse, (List.reverse_perm _).nodup_iff]
  exact List.pairwise_map.mpr (segment.bytes.descending.imp fun hlower heq => by omega)

/-- A listing shows exactly the emitted bytes. When an assembly with a listing succeeds, its text
shows the rows of every segment exactly once, those of a block in the order in which they were
generated and the blocks of a segment by ascending address, each row as a line from which its
address and its bytes are read back; and the rows of every segment that is handed out hold each byte
of its chunks exactly once and nothing else. -/
theorem assemble_listing_rows {search : AssetSearch} {main : SourceFile} {assembly : Assembly}
    (h : assemble search main true = .ok assembly) :
    ∃ (run : AssemblyRun search main) (listing : Listing) (text : String),
      run.emission.listing = some listing ∧ assembly.listing = some text ∧
      listing.ShowsIn (run.emission.layout.orderedSegments.map Prod.fst) run.operations text ∧
      ∀ name code, (name, code) ∈ assembly.segments →
        ∃ key segment, (key, segment) ∈ run.emission.layout.orderedSegments ∧
          name = lowerText segment.name ∧ code = segment.code ∧
          ShowsCode (listing.rows key) code := by
  obtain ⟨run, rfl⟩ := assemble_run_eq h
  obtain ⟨listing, hlisting, hrows⟩ := run.emitted.listing_rows rfl
  have hgenerated (key : String) :
      listing.rows key = generatedRows (operationsIn key run.operations) := hrows key
  have horder : (run.emission.layout.orderedSegments.map Prod.fst).Nodup :=
    ((List.mergeSort_perm _ _).map _).nodup_iff.mpr run.indexed.distinct
  have hlegible : ∀ row ∈ (listing.shown (run.emission.layout.orderedSegments.map
      Prod.fst)).filterMap ListingPart.row?, row.Legible := fun row hrow => by
    obtain ⟨key, hmem⟩ := Listing.mem_rows_of_shown hrow
    exact run.legible_generatedRows key row (hgenerated key ▸ hmem)
  refine ⟨run, listing, _, hlisting, ?_, ⟨horder, listing.render_eq horder,
    listing.filterMap_shown _, listing.orderedBlocks_perm, listing.orderedBlocks_pairwise,
    hgenerated, hlegible⟩, ?_⟩
  · change run.emission.renderListing = _
    rw [Emission.renderListing, hlisting, Option.map_some]
  · intro name code hcode
    obtain ⟨key, segment, hsegment, hname, rfl⟩ := run.exists_segment hcode
    have hfilled : run.emission.layout.Filled run.deposits :=
      run.emitted.filled (.initial run.layout)
    have hcells : ((listing.rows key).flatMap ListingRow.cells).Perm
        (segment.code.chunks.flatMap Chunk.cells) := by
      rw [hgenerated, run.cells_generatedRows]
      exact (hfilled.faithful hsegment).cells.symm
    refine ⟨key, segment, ?_, hname, rfl, hcells, ?_⟩
    · exact (List.mergeSort_perm _ _).mem_iff.mpr (Table.mem_of_get? hsegment)
    · exact (hcells.map Prod.fst).nodup_iff.mpr segment.cells_nodup

/-- A program with two segments, whose first one has blocks out of order, data of several rows and a
case. -/
theorem assemble_listing_rows_blocks :
    ∃ main : SourceFile,
      main.text = " .segment \"c\",0x8000,0x40,0\n .segment \"D\",0x100,8,64\n" ++
        " .c\n .org 0x8010\n switch a\n case #1\n nop\n endswitch\n .d\n .db 1,2,\"three\"\n" ++
        " .c\n .org 0x8001\n .dw 3\n" ∧
      ∃ assembly, assemble ⟨.ofTable [], []⟩ main true = .ok assembly ∧
        ∃ (run : AssemblyRun ⟨.ofTable [], []⟩ main) (listing : Listing) (text : String),
          assembly.listing = some text ∧
          listing.ShowsIn (run.emission.layout.orderedSegments.map Prod.fst) run.operations text ∧
          ∀ name code, (name, code) ∈ assembly.segments →
            ∃ key, ShowsCode (listing.rows key) code := by
  refine ⟨⟨"blocks.s", _⟩, rfl, (exists_of_isOk ?_).imp fun assembly h => ⟨h, ?_⟩⟩
  · decide +kernel
  · obtain ⟨run, listing, text, -, htext, hshows, hsegments⟩ := assemble_listing_rows h
    refine ⟨run, listing, text, htext, hshows, fun name code hcode => ?_⟩
    obtain ⟨key, segment, -, -, -, hcells⟩ := hsegments name code hcode
    exact ⟨key, hcells⟩

end Asm65816
