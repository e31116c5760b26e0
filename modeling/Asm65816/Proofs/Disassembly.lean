import Asm65816.Proofs.MachineCode

/-!
# Reading machine code back

A linear sweep over a run of machine code splits it into exactly the instructions that were emitted,
those that flow statements stand for included. A run is a stretch of addresses and not of the
source: its operations may have been emitted in any order, with any register widths, and lie one
behind the other because they are apart and leave no gap.
-/

namespace Asm65816

/-! ## Sweeping over bytes -/

/-- Splits bytes into instructions from `address` up, given the register widths in effect at every
address. An instruction that is not complete or has no entry in the table ends the sweep. -/
def sweep (widthsAt : Int → RegisterWidths) :
    Int → List UInt8 → Option (List (Int × List UInt8))
  | _, [] => some []
  | address, code :: rest =>
    match Opcode.lengthOf? (widthsAt address) code with
    | none => none
    | some length =>
      if rest.length + 1 < length then none
      else
        (sweep widthsAt (address + length) (rest.drop (length - 1))).map
          ((address, code :: rest.take (length - 1)) :: ·)
termination_by _ bytes => bytes.length
decreasing_by simp only [List.length_drop, List.length_cons]; omega

/-- A sweep takes the instruction in front and goes on behind it. -/
theorem sweep_instruction {widthsAt : Int → RegisterWidths} {address : Int} {code : UInt8}
    {operand : List UInt8}
    (h : Opcode.lengthOf? (widthsAt address) code = some (operand.length + 1))
    (rest : List UInt8) :
    sweep widthsAt address (code :: operand ++ rest) =
      (sweep widthsAt (address + (code :: operand).length) rest).map
        ((address, code :: operand) :: ·) := by
  have hcomplete : ¬(operand ++ rest).length + 1 < operand.length + 1 := by
    rw [List.length_append]
    omega
  rw [List.cons_append, sweep, h]
  dsimp only
  rw [if_neg hcomplete, Nat.add_sub_cancel, List.drop_left, List.take_left, List.length_cons]

/-- Where a row stands and what it holds. -/
def ListingRow.located (row : ListingRow) : Int × List UInt8 := (row.address, row.bytes)

/-- A sweep over machine instructions gives their rows. -/
theorem Code.Encodes.sweep {address : Int} {selections : List Selection} {code : Code}
    {widths : RegisterWidths} {widthsAt : Int → RegisterWidths}
    (h : code.Encodes address selections) (hfit : code.RowsFit widths)
    (hwidths : ∀ row ∈ code.rows, widthsAt row.address = widths) (rest : List UInt8) :
    sweep widthsAt address (code.bytes ++ rest) =
      (Asm65816.sweep widthsAt (address + code.bytes.length) rest).map
        (code.rows.map ListingRow.located ++ ·) := by
  induction h generalizing rest with
  | none bytes rows => simp [bytes, rows]
  | @single address selection code entry operand instruction comment chosen bytes length rows =>
    rw [rows, List.forall_mem_singleton] at hwidths
    obtain ⟨found, htable, hhead, hsize⟩ := hfit _ (rows ▸ List.mem_singleton_self _)
    dsimp only at hwidths hhead hsize
    rw [bytes, List.head?_cons, Option.some.injEq] at hhead
    rw [bytes, List.length_cons] at hsize
    have hlength : Opcode.lengthOf? (widthsAt address) entry.code = some (operand.length + 1) := by
      rw [hwidths, hhead, Opcode.lengthOf?_code htable, hsize]
    rw [rows, bytes, sweep_instruction hlength]
    rfl
  | @append address early late first second before after ihBefore ihAfter =>
    rw [rows_append] at hwidths
    have hfirst := ihBefore (fun row hrow => hfit row (by simp [hrow]))
      (fun row hrow => hwidths row (List.mem_append_left _ hrow)) (second.bytes ++ rest)
    have hsecond := ihAfter (fun row hrow => hfit row (by simp [hrow]))
      (fun row hrow => hwidths row (List.mem_append_right _ hrow)) rest
    have hbehind : address + (first ++ second).bytes.length =
        address + first.bytes.length + second.bytes.length := by
      rw [bytes_append, List.length_append]
      omega
    rw [hbehind, bytes_append, List.append_assoc, hfirst, hsecond, Option.map_map, rows_append,
      List.map_append]
    congr 1
    funext found
    exact (List.append_assoc _ _ _).symm

/-! ## Runs of machine code -/

instance (deposit : Deposit) (address : Int) : Decidable (deposit.Covers address) :=
  inferInstanceAs (Decidable (_ ∧ _))

/-- An instruction or a flow statement in the segment found under `key` has a byte at an address. -/
def CodeAt (operations : List EmittedOperation) (key : String) (address : Int) : Prop :=
  ∃ entry ∈ operationsIn key operations,
    entry.operation.isCode = true ∧ entry.deposit.Covers address

instance (operations : List EmittedOperation) (key : String) (address : Int) :
    Decidable (CodeAt operations key address) :=
  inferInstanceAs (Decidable (∃ entry ∈ operationsIn key operations, _))

/-- A stretch of addresses whose bytes come from instructions and flow statements only, and which
cannot be made longer. -/
structure MaximalRun (operations : List EmittedOperation) (key : String) (start stop : Int) :
    Prop where
  nonempty : start < stop
  covered : ∀ address, start ≤ address → address < stop → CodeAt operations key address
  before : ¬CodeAt operations key (start - 1)
  behind : ¬CodeAt operations key stop

instance (operations : List EmittedOperation) (key : String) (start stop : Int) :
    Decidable (MaximalRun operations key start stop) :=
  decidable_of_iff
    (start < stop ∧ (∀ offset < (stop - start).toNat, CodeAt operations key (start + offset)) ∧
      ¬CodeAt operations key (start - 1) ∧ ¬CodeAt operations key stop)
    ⟨fun ⟨hnonempty, hcovered, hbefore, hbehind⟩ => ⟨hnonempty, fun address hlow hhigh => by
        have hoffset := hcovered (address - start).toNat (by omega)
        rwa [show start + ((address - start).toNat : Int) = address by omega] at hoffset,
        hbefore, hbehind⟩,
      fun h => ⟨h.nonempty, fun offset hoffset => h.covered _ (by omega) (by omega), h.before,
        h.behind⟩⟩

/-- The instructions and flow statements with bytes that begin in a stretch of addresses. -/
def codeBetween (operations : List EmittedOperation) (key : String) (start stop : Int) :
    List EmittedOperation :=
  (operationsIn key operations).filter fun entry =>
    entry.operation.isCode && !entry.deposit.bytes.isEmpty &&
      decide (start ≤ entry.deposit.address ∧ entry.deposit.address < stop)

/-- Membership in a stretch, taken apart. -/
theorem mem_codeBetween {operations : List EmittedOperation} {key : String} {start stop : Int}
    {entry : EmittedOperation} :
    entry ∈ codeBetween operations key start stop ↔
      entry ∈ operationsIn key operations ∧ entry.operation.isCode = true ∧
        entry.deposit.bytes ≠ [] ∧ start ≤ entry.deposit.address ∧
        entry.deposit.address < stop := by
  simp [codeBetween, and_assoc]

/-- Operations that lie one behind the other, from one address to another. -/
inductive Tiles : Int → List EmittedOperation → Int → Prop where
  | done (address : Int) : Tiles address [] address
  | next {address stop : Int} {entry : EmittedOperation} {rest : List EmittedOperation}
      (here : entry.deposit.address = address)
      (behind : Tiles (address + entry.deposit.bytes.length) rest stop) :
      Tiles address (entry :: rest) stop

namespace Tiles

variable {start stop : Int} {entries : List EmittedOperation}

/-- Operations with bytes that are in order, end before the next one begins and leave no gap lie one
behind the other. -/
theorem of_covered (hordered : entries.Pairwise fun first second : EmittedOperation =>
      first.deposit.address + first.deposit.bytes.length ≤ second.deposit.address)
    (hbytes : ∀ entry ∈ entries, entry.deposit.bytes ≠ [])
    (hinside : ∀ entry ∈ entries, start ≤ entry.deposit.address ∧
      entry.deposit.address + entry.deposit.bytes.length ≤ stop)
    (hle : start ≤ stop)
    (hcovered : ∀ address, start ≤ address → address < stop →
      ∃ entry ∈ entries, entry.deposit.Covers address) : Tiles start entries stop := by
  induction entries generalizing start with
  | nil =>
    by_cases hstop : start < stop
    · obtain ⟨entry, hentry, -⟩ := hcovered start (Int.le_refl _) hstop
      cases hentry
    · obtain rfl : start = stop := by omega
      exact .done start
  | cons entry rest ih =>
    obtain ⟨hfirst, hrest⟩ := List.pairwise_cons.mp hordered
    have hlength : 0 < entry.deposit.bytes.length :=
      List.length_pos_iff.mpr (hbytes entry List.mem_cons_self)
    have hentry := hinside entry List.mem_cons_self
    -- The first address can only be covered by the first operation.
    have hhere : entry.deposit.address = start := by
      obtain ⟨found, hfound, hlow, -⟩ := hcovered start (Int.le_refl _) (by omega)
      rcases List.mem_cons.mp hfound with rfl | hlater
      · omega
      · have hafter := hfirst found hlater
        omega
    refine .next hhere (ih hrest (fun other hother => hbytes other (List.mem_cons_of_mem _ hother))
      (fun other hother => ?_) (by omega) fun address hlow hhigh => ?_)
    · have hafter := hfirst other hother
      exact ⟨by omega, (hinside other (List.mem_cons_of_mem _ hother)).2⟩
    · obtain ⟨found, hfound, hcovers⟩ := hcovered address (by omega) hhigh
      rcases List.mem_cons.mp hfound with rfl | hlater
      · have hbefore := hcovers.2
        omega
      · exact ⟨found, hlater, hcovers⟩

/-- The bytes of operations that lie one behind the other fill the stretch. -/
theorem length_eq (h : Tiles start entries stop) :
    start + (entries.flatMap fun entry => entry.deposit.bytes).length = stop := by
  induction h with
  | done address => simp
  | next here behind ih =>
    rw [List.flatMap_cons, List.length_append]
    omega

/-- The bytes of operations that lie one behind the other have the addresses of the operations. -/
theorem cells_eq (h : Tiles start entries stop) :
    cellsFrom start (entries.flatMap fun entry => entry.deposit.bytes) =
      entries.flatMap fun entry => entry.deposit.cells := by
  induction h with
  | done address => rfl
  | next here behind ih =>
    rw [List.flatMap_cons, cellsFrom_append, ih, List.flatMap_cons, Deposit.cells, here]

/-- A sweep over operations that lie one behind the other gives their machine instructions. -/
theorem sweep_eq {widthsAt : Int → RegisterWidths} (h : Tiles start entries stop)
    (hencodes : ∀ entry ∈ entries,
      entry.emitted.code.Encodes entry.emitted.layout.address entry.selections ∧
        entry.emitted.code.RowsFit entry.emitted.layout.widths)
    (hwidths : ∀ entry ∈ entries, ∀ row ∈ entry.emitted.code.rows,
      widthsAt row.address = entry.emitted.layout.widths) :
    sweep widthsAt start (entries.flatMap fun entry => entry.deposit.bytes) =
      some ((entries.flatMap EmittedOperation.machine).map fun pair => pair.1.located) := by
  induction h with
  | done address =>
    rw [List.flatMap_nil, sweep]
    rfl
  | @next address stop entry rest here behind ih =>
    obtain ⟨hentry, hfit⟩ := hencodes entry List.mem_cons_self
    have hrest := ih (fun other hother => hencodes other (List.mem_cons_of_mem _ hother))
      (fun other hother => hwidths other (List.mem_cons_of_mem _ hother))
    have hplace : entry.emitted.layout.address = address := here
    rw [hplace] at hentry
    have hrows : (entry.machine.map fun pair => pair.1.located) =
        entry.emitted.code.rows.map ListingRow.located := by
      have hzip : entry.machine.map Prod.fst = entry.emitted.code.rows :=
        List.map_fst_zip (Nat.le_of_eq hentry.length_rows)
      rw [← hzip, List.map_map]
      rfl
    have hfirst := hentry.sweep hfit (hwidths entry List.mem_cons_self)
      (rest.flatMap fun other => other.deposit.bytes)
    rw [List.flatMap_cons, List.flatMap_cons, List.map_append, hrows]
    refine hfirst.trans ?_
    change (sweep widthsAt (address + entry.deposit.bytes.length) _).map _ = _
    rw [hrest, Option.map_some]

end Tiles

/-- The register widths in effect for the operation that has a byte at an address. -/
def widthsAt (operations : List EmittedOperation) (key : String) (address : Int) :
    RegisterWidths :=
  ((operationsIn key operations).find? fun entry => decide (entry.deposit.Covers address)).elim
    ⟨false, false⟩ fun entry => entry.emitted.layout.widths

namespace AssemblyRun

variable {search : AssetSearch} {main : SourceFile} (run : AssemblyRun search main)

/-- The operations in a segment have no address in common. -/
theorem operationsIn_apart (key : String) :
    (operationsIn key run.operations).Pairwise fun first second =>
      ∀ address, ¬(first.deposit.Covers address ∧ second.deposit.Covers address) := by
  have hfilled : run.emission.layout.Filled run.deposits :=
    run.emitted.filled (.initial run.layout)
  have happart := hfilled.apart
  rw [run.deposits_eq, List.pairwise_map] at happart
  refine (happart.sublist List.filter_sublist).imp_of_mem fun hfirst hsecond hapart => hapart ?_
  have hkey := of_decide_eq_true (List.mem_filter.mp hfirst).2
  exact hkey.trans (of_decide_eq_true (List.mem_filter.mp hsecond).2).symm

/-- An address belongs to one operation at most. -/
theorem widthsAt_eq {key : String} {entry : EmittedOperation} {address : Int}
    (h : entry ∈ operationsIn key run.operations) (hcovers : entry.deposit.Covers address) :
    widthsAt run.operations key address = entry.emitted.layout.widths := by
  have hpairs : (operationsIn key run.operations).Pairwise fun first second : EmittedOperation =>
      first.deposit.Covers address → second.deposit.Covers address → first = second :=
    (run.operationsIn_apart key).imp fun hapart hfirst hsecond =>
      absurd ⟨hfirst, hsecond⟩ (hapart address)
  have hunique := hpairs.forall_of_forall_of_flip (fun _ _ _ _ => rfl)
    (hpairs.imp fun hsame hsecond hfirst => (hsame hfirst hsecond).symm)
  unfold widthsAt
  cases hfound : (operationsIn key run.operations).find? fun other =>
      decide (other.deposit.Covers address) with
  | none => exact absurd (decide_eq_true hcovers) (List.find?_eq_none.mp hfound entry h)
  | some found =>
    have hfirst : found.deposit.Covers address := by simpa using List.find?_some hfound
    rw [hunique (List.mem_of_find?_eq_some hfound) h hfirst hcovers]
    rfl

/-- The row of a machine instruction begins inside of its operation. -/
theorem covers_row {entry : EmittedOperation} {row : ListingRow} (h : entry ∈ run.operations)
    (hcode : entry.operation.isCode = true) (hrow : row ∈ entry.emitted.code.rows) :
    entry.deposit.Covers row.address := by
  obtain ⟨hencodes, hfit⟩ := run.encodes h hcode
  obtain ⟨opcode, -, hhead, -⟩ := hfit row hrow
  obtain ⟨rest, hbytes⟩ := List.head?_eq_some_iff.mp hhead
  have hcell : (row.address, opcode.code) ∈
      entry.emitted.code.rows.flatMap ListingRow.cells := by
    refine List.mem_flatMap.mpr ⟨row, hrow, ?_⟩
    rw [ListingRow.cells, hbytes, cellsFrom]
    exact List.mem_cons_self
  rw [hencodes.shownAt.cells] at hcell
  exact mem_cellsFrom_bounds hcell

/-- The operations of a maximal run, by address, lie one behind the other. -/
theorem exists_tiles {key : String} {start stop : Int}
    (h : MaximalRun run.operations key start stop) :
    ∃ entries, entries.Perm (codeBetween run.operations key start stop) ∧
      (entries.Pairwise fun first second : EmittedOperation =>
        first.deposit.address < second.deposit.address) ∧ Tiles start entries stop := by
  have hperm := List.mergeSort_perm (codeBetween run.operations key start stop)
    fun first second => decide (first.deposit.address ≤ second.deposit.address)
  generalize hentries : ((codeBetween run.operations key start stop).mergeSort
    fun first second => decide (first.deposit.address ≤ second.deposit.address)) = entries at hperm
  have hmem {entry : EmittedOperation} (hentry : entry ∈ entries) :=
    mem_codeBetween.mp (hperm.mem_iff.mp hentry)
  have hsorted : entries.Pairwise fun first second : EmittedOperation =>
      first.deposit.address ≤ second.deposit.address :=
    hentries ▸ pairwise_mergeSort_on (fun entry : EmittedOperation => entry.deposit.address) _
  have happart : entries.Pairwise fun first second : EmittedOperation =>
      ∀ address, ¬(first.deposit.Covers address ∧ second.deposit.Covers address) :=
    (hperm.pairwise_iff fun hapart address hboth => hapart address hboth.symm).mpr
      ((run.operationsIn_apart key).sublist List.filter_sublist)
  have hordered : entries.Pairwise fun first second : EmittedOperation =>
      first.deposit.address + first.deposit.bytes.length ≤ second.deposit.address := by
    refine (hsorted.and happart).imp_of_mem fun hfirst hsecond hboth => ?_
    have hlength := List.length_pos_iff.mpr (hmem hsecond).2.2.1
    refine Int.not_lt.mp fun hover => ?_
    exact hboth.2 _ ⟨⟨hboth.1, hover⟩, Int.le_refl _, by omega⟩
  refine ⟨entries, hperm, ?_, ?_⟩
  · refine hordered.imp_of_mem fun hfirst _ hle => ?_
    have hlength := List.length_pos_iff.mpr (hmem hfirst).2.2.1
    omega
  · refine .of_covered hordered (fun entry hentry => (hmem hentry).2.2.1)
      (fun entry hentry => ⟨(hmem hentry).2.2.2.1, ?_⟩) (Int.le_of_lt h.nonempty)
      fun address hlow hhigh => ?_
    · obtain ⟨hin, hcode, -, -, hbelow⟩ := hmem hentry
      refine Int.not_lt.mp fun hover => ?_
      exact h.behind ⟨entry, hin, hcode, Int.le_of_lt hbelow, hover⟩
    · obtain ⟨entry, hin, hcode, hcovers⟩ := h.covered address hlow hhigh
      have hbytes : entry.deposit.bytes ≠ [] := fun hnil =>
        Deposit.not_covers_of_nil hnil _ hcovers
      refine ⟨entry, hperm.mem_iff.mpr (mem_codeBetween.mpr ⟨hin, hcode, hbytes, ?_, ?_⟩), hcovers⟩
      · refine Int.not_lt.mp fun hbefore => h.before ⟨entry, hin, hcode, by omega, ?_⟩
        have hend := hcovers.2
        omega
      · exact Int.lt_of_le_of_lt hcovers.1 hhigh

end AssemblyRun

/-- What a sweep over a run of machine code finds. -/
structure Disassembles (operations : List EmittedOperation) (key : String) (start stop : Int)
    (code : SegmentCode) (bytes : List UInt8) (entries : List EmittedOperation) : Prop where
  /-- The bytes are those of the segment between the two addresses. -/
  length : start + bytes.length = stop
  placed : ∀ cell ∈ cellsFrom start bytes, cell ∈ code.chunks.flatMap Chunk.cells
  /-- The operations are the instructions and flow statements of the run, by address. -/
  complete : entries.Perm (codeBetween operations key start stop)
  ascending : entries.Pairwise fun first second : EmittedOperation =>
    first.deposit.address < second.deposit.address
  /-- The sweep gives their machine instructions. -/
  swept : sweep (widthsAt operations key) start bytes =
    some ((entries.flatMap EmittedOperation.machine).map fun pair => pair.1.located)
  /-- Every opcode has an entry for the mnemonic and the mode that were selected. -/
  selected : ∀ pair ∈ entries.flatMap EmittedOperation.machine, ∃ entry, pair.2.Chooses entry ∧
    pair.1.bytes.head? = some entry.code

/-- A maximal run of machine code in a segment is read back by a sweep. -/
theorem AssemblyRun.exists_disassembles {search : AssetSearch} {main : SourceFile}
    (run : AssemblyRun search main) {key : String} {segment : Segment} {start stop : Int}
    (hsegment : run.emission.layout.segments.get? key = some segment)
    (h : MaximalRun run.operations key start stop) :
    ∃ bytes entries, Disassembles run.operations key start stop segment.code bytes entries := by
  obtain ⟨entries, hperm, hascending, htiles⟩ := run.exists_tiles h
  have hmem {entry : EmittedOperation} (hentry : entry ∈ entries) :
      entry ∈ operationsIn key run.operations ∧ entry.operation.isCode = true := by
    obtain ⟨hin, hcode, -⟩ := mem_codeBetween.mp (hperm.mem_iff.mp hentry)
    exact ⟨hin, hcode⟩
  have hrun {entry : EmittedOperation} (hentry : entry ∈ entries) : entry ∈ run.operations :=
    (List.mem_filter.mp (hmem hentry).1).1
  have hfilled : run.emission.layout.Filled run.deposits :=
    run.emitted.filled (.initial run.layout)
  refine ⟨_, entries, htiles.length_eq, fun cell hcell => ?_, hperm, hascending,
    htiles.sweep_eq (fun entry hentry => run.encodes (hrun hentry) (hmem hentry).2)
      fun entry hentry row hrow => ?_, fun pair hpair => ?_⟩
  · rw [htiles.cells_eq] at hcell
    obtain ⟨entry, hentry, hcell⟩ := List.mem_flatMap.mp hcell
    refine (hfilled.faithful hsegment).cells.mem_iff.mpr
      (List.mem_flatMap.mpr ⟨entry.deposit, List.mem_filter.mpr ⟨?_, ?_⟩, hcell⟩)
    · rw [run.deposits_eq]
      exact List.mem_map_of_mem (hrun hentry)
    · exact (List.mem_filter.mp (hmem hentry).1).2
  · exact run.widthsAt_eq (hmem hentry).1 (run.covers_row (hrun hentry) (hmem hentry).2 hrow)
  · obtain ⟨entry, hentry, hpair⟩ := List.mem_flatMap.mp hpair
    obtain ⟨opcode, hchosen, hhead, -⟩ :=
      (run.encodes (hrun hentry) (hmem hentry).2).1.chosen pair hpair
    exact ⟨opcode, hchosen, hhead⟩

/-- Linear-sweep disassembly recovers the instruction stream. In an assembly that succeeds, every
maximal run of bytes in a segment that come from instructions and flow statements only is split by
a sweep into exactly the machine instructions that were emitted there: the sweep takes each length
from the opcode table and the register widths in effect, its boundaries are those of the
instructions, and each opcode has an entry for the selected mnemonic and mode. The segments that are
handed out are those of the run, and with names in ASCII none of them is missing. -/
theorem assemble_disassembles {search : AssetSearch} {main : SourceFile} {listing : Bool}
    {assembly : Assembly} (h : assemble search main listing = .ok assembly) :
    Nonempty (AssemblyRun search main) ∧
    ∀ run : AssemblyRun search main, assembly.segments = run.emission.segmentCode ∧
      (∀ name code, (name, code) ∈ assembly.segments →
        ∃ key segment, run.emission.layout.segments.get? key = some segment ∧
          name = lowerText segment.name ∧ code = segment.code ∧
          ∀ start stop, MaximalRun run.operations key start stop →
            ∃ bytes entries, Disassembles run.operations key start stop code bytes entries) ∧
      ((∀ key segment, run.emission.layout.segments.get? key = some segment →
          IsAscii segment.name) →
        ∀ key segment, run.emission.layout.segments.get? key = some segment →
          assembly.segments.get? (lowerText segment.name) = some segment.code) := by
  constructor
  · obtain ⟨run, -⟩ := assemble_run h
    exact ⟨run⟩
  · intro run
    rw [run.segments_eq h]
    refine ⟨rfl, fun name code hcode => ?_, fun hascii key segment hsegment => ?_⟩
    · obtain ⟨key, segment, hsegment, hname, rfl⟩ := run.exists_segment hcode
      exact ⟨key, segment, hsegment, hname, rfl, fun start stop hmaximal =>
        run.exists_disassembles hsegment hmaximal⟩
    · exact (run.segmentCode_get? hascii).mpr ⟨key, segment, hsegment, rfl, rfl⟩

/-- A run between data, whose parts were emitted out of order and with different register widths,
and which a sweep over the segment that is handed out splits into its instructions. -/
theorem assemble_disassembles_run :
    ∃ main : SourceFile, main.text = " .segment \"c\",0x8000,0x40,0\n .c\n .db 0xA9\n" ++
        " .org 0x8004\n switch a\n case #1\n brk\n endswitch\n .db 1\n" ++
        " .org 0x8001\n .a16\n lda #1\n" ∧
      ∃ run : AssemblyRun ⟨.ofTable [], []⟩ main, MaximalRun run.operations "C" 0x8001 0x800A ∧
        ∃ assembly, assemble ⟨.ofTable [], []⟩ main false = .ok assembly ∧
          ∃ code bytes entries, assembly.segments.get? "c" = some code ∧
            Disassembles run.operations "C" 0x8001 0x800A code bytes entries := by
  refine ⟨⟨"sweep.s", _⟩, rfl, (AssemblyRun.exists_of_any (fun run =>
    decide (MaximalRun run.operations "C" 0x8001 0x800A) &&
      run.emission.layout.segments.map (fun entry => (entry.1, entry.2.name)) == [("C", "c")])
    ?_).imp fun run hpasses => ?_⟩
  · decide +kernel
  · obtain ⟨hmaximal, hnames⟩ := Bool.and_eq_true_iff.mp hpasses
    refine ⟨of_decide_eq_true hmaximal, (run.assembles false).imp fun assembly hassembled =>
      ⟨hassembled, ?_⟩⟩
    obtain ⟨-, hruns, hsegments⟩ := (assemble_disassembles hassembled).2 run
    obtain ⟨⟨key, segment⟩, hlayout, heq⟩ := List.map_eq_singleton_iff.mp (eq_of_beq hnames)
    obtain ⟨rfl, hname⟩ := Prod.mk.inj heq
    have honly {found : String} {other : Segment}
        (hget : run.emission.layout.segments.get? found = some other) :
        found = "C" ∧ other = segment := by
      have hmem := Table.mem_of_get? hget
      rw [hlayout, List.mem_singleton] at hmem
      exact Prod.mk.inj hmem
    have hget : run.emission.layout.segments.get? "C" = some segment := by
      rw [hlayout]
      rfl
    have hascii : ∀ found other, run.emission.layout.segments.get? found = some other →
        IsAscii other.name := by
      intro found other hfound
      obtain ⟨-, rfl⟩ := honly hfound
      rw [show other.name = "c" from hname]
      decide
    have hhanded := hsegments hascii "C" segment hget
    rw [show segment.name = "c" from hname] at hhanded
    obtain ⟨found, other, hfound, -, -, hmaximals⟩ :=
      hruns _ _ (Table.mem_of_get? hhanded)
    obtain ⟨rfl, -⟩ := honly hfound
    obtain ⟨bytes, entries, hswept⟩ := hmaximals _ _ (of_decide_eq_true hmaximal)
    exact ⟨_, bytes, entries, hhanded, hswept⟩

end Asm65816
