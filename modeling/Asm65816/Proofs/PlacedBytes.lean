import Asm65816.Segment.Bytes

/-!
# Placed bytes and their runs

Writing bytes at free addresses adds exactly their cells, and a write that meets a taken address
names the lowest one. Reading a map out gives its cells in ascending order, in runs that are not
empty and have a free address between them.
-/

namespace Asm65816

/-- Bytes with their addresses, from `address` up. -/
def cellsFrom (address : Int) : List UInt8 → List (Int × UInt8)
  | [] => []
  | byte :: rest => (address, byte) :: cellsFrom (address + 1) rest

/-- The cells of a run. -/
def Chunk.cells (chunk : Chunk) : List (Int × UInt8) := cellsFrom chunk.start chunk.bytes

/-- Bytes behind others have the addresses behind theirs. -/
theorem cellsFrom_append (address : Int) (first second : List UInt8) :
    cellsFrom address (first ++ second) =
      cellsFrom address first ++ cellsFrom (address + first.length) second := by
  induction first generalizing address with
  | nil => simp [cellsFrom]
  | cons byte rest ih =>
    have hbehind : address + 1 + rest.length = address + (byte :: rest).length := by
      rw [List.length_cons]
      omega
    rw [List.cons_append, cellsFrom, cellsFrom, ih, hbehind, List.cons_append]

/-- Every cell lies in the interval of its bytes. -/
theorem mem_cellsFrom_bounds {address : Int} {bytes : List UInt8} {cell : Int × UInt8}
    (h : cell ∈ cellsFrom address bytes) :
    address ≤ cell.1 ∧ cell.1 < address + bytes.length := by
  induction bytes generalizing address with
  | nil => cases h
  | cons byte rest ih =>
    rw [List.length_cons]
    rcases List.mem_cons.mp h with rfl | hrest
    · dsimp only
      omega
    · have hbounds := ih hrest
      omega

/-- Every address of the interval has a cell. -/
theorem exists_mem_cellsFrom {address target : Int} {bytes : List UInt8} (hlow : address ≤ target)
    (hhigh : target < address + bytes.length) :
    ∃ byte, (target, byte) ∈ cellsFrom address bytes := by
  induction bytes generalizing address with
  | nil =>
    rw [List.length_nil] at hhigh
    omega
  | cons byte rest ih =>
    rw [List.length_cons] at hhigh
    by_cases hfirst : target = address
    · exact ⟨byte, hfirst ▸ List.mem_cons_self⟩
    · have hnext : address + 1 ≤ target := by omega
      obtain ⟨found, hfound⟩ := ih hnext (by omega)
      exact ⟨found, List.mem_cons_of_mem _ hfound⟩

namespace ByteMap

/-- An address is taken when a cell of the map has it. -/
def Taken (map : ByteMap) (address : Int) : Prop := ∃ byte, (address, byte) ∈ map.cells

/-- A byte that is found is in a cell. -/
theorem mem_cells_of_get? {map : ByteMap} {address : Int} {byte : UInt8}
    (h : map.get? address = some byte) : (address, byte) ∈ map.cells := by
  unfold get? at h
  cases hrest : map.cells.dropWhile fun cell => decide (address < cell.1) with
  | nil => simp only [hrest, reduceCtorEq] at h
  | cons cell rest =>
    obtain ⟨found, content⟩ := cell
    simp only [hrest] at h
    split at h
    case isFalse => cases h
    case isTrue hfound =>
      obtain rfl := Option.some.inj h
      have hmem : (found, content) ∈ map.cells.dropWhile fun cell => decide (address < cell.1) := by
        rw [hrest]
        exact List.mem_cons_self
      rw [← hfound]
      exact (List.dropWhile_sublist _).mem hmem

/-- An address at which nothing is found is free. -/
theorem not_taken_of_get? {map : ByteMap} {address : Int} (h : map.get? address = none) :
    ¬map.Taken address := by
  rintro ⟨byte, hmem⟩
  have hordered : (map.cells.dropWhile fun cell => decide (address < cell.1)).Pairwise
      fun upper lower => lower.1 < upper.1 :=
    map.descending.sublist (List.dropWhile_sublist _)
  have hsplit : (map.cells.takeWhile fun cell => decide (address < cell.1)) ++
      (map.cells.dropWhile fun cell => decide (address < cell.1)) = map.cells :=
    List.takeWhile_append_dropWhile
  rw [← hsplit, List.mem_append] at hmem
  rcases hmem with habove | hbelow
  · exact Int.lt_irrefl _ (lt_of_mem_takeWhile habove)
  · unfold get? at h
    cases hrest : map.cells.dropWhile fun cell => decide (address < cell.1) with
    | nil =>
      rw [hrest] at hbelow
      cases hbelow
    | cons cell rest =>
      obtain ⟨found, content⟩ := cell
      have hhead : ¬address < found := by
        have hnot := List.head?_dropWhile_not
          (fun cell : Int × UInt8 => decide (address < cell.1)) map.cells
        simpa [hrest] using hnot
      rw [hrest] at hbelow hordered
      simp only [hrest] at h
      split at h
      case isTrue => cases h
      case isFalse hfound =>
        rcases List.mem_cons.mp hbelow with heq | htail
        · exact hfound (congrArg Prod.fst heq).symm
        · have hlower := (List.pairwise_cons.mp hordered).1 _ htail
          dsimp only at hlower
          omega

/-- At a free address the cells at or above it are those above it. -/
theorem dropWhile_of_not_taken {map : ByteMap} {address : Int} (h : ¬map.Taken address) :
    (map.cells.dropWhile fun cell => decide (address ≤ cell.1)) =
      map.cells.dropWhile fun cell => decide (address < cell.1) := by
  have hfree : ∀ cell ∈ map.cells, cell.1 ≠ address := by
    rintro ⟨found, byte⟩ hmem rfl
    exact h ⟨byte, hmem⟩
  clear h
  generalize map.cells = cells at hfree ⊢
  induction cells with
  | nil => rfl
  | cons cell rest ih =>
    have hne := hfree cell List.mem_cons_self
    have hrest := ih fun other hother => hfree other (List.mem_cons_of_mem _ hother)
    by_cases hle : address ≤ cell.1
    · have hlt : address < cell.1 := by omega
      simp only [List.dropWhile_cons, hle, hlt, decide_true, if_true, hrest]
    · have hlt : ¬address < cell.1 := by omega
      simp only [List.dropWhile_cons, hle, hlt, decide_false, Bool.false_eq_true, if_false]

/-- Inserting at a free address adds one cell. -/
theorem insert_perm {map : ByteMap} {address : Int} (byte : UInt8) (h : ¬map.Taken address) :
    (map.insert address byte).cells.Perm ((address, byte) :: map.cells) := by
  have hsplit : (map.cells.takeWhile fun cell => decide (address < cell.1)) ++
      (map.cells.dropWhile fun cell => decide (address < cell.1)) = map.cells :=
    List.takeWhile_append_dropWhile
  calc (map.insert address byte).cells
      = (map.cells.takeWhile fun cell => decide (address < cell.1)) ++
          (address, byte) :: map.cells.dropWhile fun cell => decide (address ≤ cell.1) := rfl
    _ = (map.cells.takeWhile fun cell => decide (address < cell.1)) ++
          (address, byte) :: map.cells.dropWhile fun cell => decide (address < cell.1) := by
        rw [dropWhile_of_not_taken h]
    List.Perm _ ((address, byte) :: ((map.cells.takeWhile fun cell => decide (address < cell.1)) ++
          map.cells.dropWhile fun cell => decide (address < cell.1))) := List.perm_middle
    _ = (address, byte) :: map.cells := by rw [hsplit]

/-- After inserting at a free address, that address is taken and the others are as before. -/
theorem taken_insert {map : ByteMap} {address other : Int} (byte : UInt8)
    (h : ¬map.Taken address) :
    (map.insert address byte).Taken other ↔ other = address ∨ map.Taken other := by
  constructor
  · rintro ⟨content, hmem⟩
    rcases List.mem_cons.mp ((insert_perm byte h).mem_iff.mp hmem) with heq | hold
    · exact .inl (congrArg Prod.fst heq)
    · exact .inr ⟨content, hold⟩
  · rintro (rfl | ⟨content, hmem⟩)
    · exact ⟨byte, (insert_perm byte h).mem_iff.mpr List.mem_cons_self⟩
    · exact ⟨content, (insert_perm byte h).mem_iff.mpr (List.mem_cons_of_mem _ hmem)⟩

/-- A write without a clash adds the cells of its bytes, all of them at free addresses. -/
theorem write_perm {map written : ByteMap} {address : Int} {bytes : List UInt8}
    (h : map.write address bytes = (written, none)) :
    written.cells.Perm (cellsFrom address bytes ++ map.cells) ∧
      ∀ target, address ≤ target → target < address + bytes.length → ¬map.Taken target := by
  induction bytes generalizing map address with
  | nil =>
    obtain rfl : map = written := congrArg Prod.fst h
    refine ⟨.refl _, fun target hlow hhigh => ?_⟩
    rw [List.length_nil] at hhigh
    omega
  | cons byte rest ih =>
    unfold write at h
    cases hfound : map.get? address with
    | some content =>
      simp only [hfound, Prod.mk.injEq, reduceCtorEq, and_false] at h
    | none =>
      simp only [hfound] at h
      have hfree := not_taken_of_get? hfound
      obtain ⟨hperm, hrest⟩ := ih h
      constructor
      · refine hperm.trans ?_
        exact ((insert_perm byte hfree).append_left _).trans List.perm_middle
      · intro target hlow hhigh htaken
        rw [List.length_cons] at hhigh
        by_cases hfirst : target = address
        · exact hfree (hfirst ▸ htaken)
        · exact hrest target (by omega) (by omega) ((taken_insert byte hfree).mpr (.inr htaken))

/-- A write that clashes names the lowest of its addresses that is taken. -/
theorem write_clash {map written : ByteMap} {address taken : Int} {bytes : List UInt8}
    (h : map.write address bytes = (written, some taken)) :
    address ≤ taken ∧ taken < address + bytes.length ∧ map.Taken taken ∧
      ∀ target, address ≤ target → target < taken → ¬map.Taken target := by
  induction bytes generalizing map address with
  | nil => cases h
  | cons byte rest ih =>
    rw [List.length_cons]
    unfold write at h
    cases hfound : map.get? address with
    | some content =>
      simp only [hfound, Prod.mk.injEq, Option.some.injEq] at h
      obtain ⟨-, rfl⟩ := h
      refine ⟨Int.le_refl _, by omega, ⟨content, mem_cells_of_get? hfound⟩,
        fun target hlow hhigh => ?_⟩
      omega
    | none =>
      simp only [hfound] at h
      have hfree := not_taken_of_get? hfound
      obtain ⟨hlow, hhigh, htaken, hleast⟩ := ih h
      refine ⟨by omega, by omega, ?_, fun target htarget hbelow => ?_⟩
      · rcases (taken_insert byte hfree).mp htaken with heq | hold
        · omega
        · exact hold
      · by_cases hfirst : target = address
        · exact hfirst ▸ hfree
        · intro hold
          exact hleast target (by omega) hbelow ((taken_insert byte hfree).mpr (.inr hold))

end ByteMap

/-- Runs that are not empty, in ascending order, with a free address between them. -/
structure SeparatedRuns (chunks : List Chunk) : Prop where
  nonempty : ∀ chunk ∈ chunks, chunk.bytes ≠ []
  separated : chunks.Pairwise fun lower upper : Chunk =>
    lower.start + lower.bytes.length < upper.start

namespace ByteMap

/-- A cell below all runs is put in front of them, in a run of its own or in the first one. -/
theorem prependCell_runs {chunks : List Chunk} {cell : Int × UInt8} (h : SeparatedRuns chunks)
    (hbelow : ∀ chunk ∈ chunks, cell.1 < chunk.start) :
    SeparatedRuns (prependCell chunks cell) ∧
      (prependCell chunks cell).flatMap Chunk.cells = cell :: chunks.flatMap Chunk.cells ∧
      ∀ chunk ∈ prependCell chunks cell, cell.1 ≤ chunk.start := by
  cases chunks with
  | nil =>
    refine ⟨⟨?_, ?_⟩, rfl, ?_⟩
    · simp [prependCell]
    · exact List.pairwise_singleton _ _
    · simp [prependCell]
  | cons chunk rest =>
    have hfirst := hbelow chunk List.mem_cons_self
    obtain ⟨hahead, hrest⟩ := List.pairwise_cons.mp h.separated
    unfold prependCell
    dsimp only
    split
    case isTrue hnext =>
      refine ⟨⟨fun found hfound => ?_, List.pairwise_cons.mpr ⟨fun upper hupper => ?_, hrest⟩⟩, ?_,
        fun found hfound => ?_⟩
      · rcases List.mem_cons.mp hfound with rfl | hfound
        · simp
        · exact h.nonempty found (List.mem_cons_of_mem _ hfound)
      · have hgap := hahead upper hupper
        simp only [List.length_cons]
        omega
      · simp only [List.flatMap_cons, Chunk.cells, cellsFrom, hnext, List.cons_append]
      · rcases List.mem_cons.mp hfound with rfl | hfound
        · exact Int.le_refl _
        · have hlater := hbelow found (List.mem_cons_of_mem _ hfound)
          omega
    case isFalse hgap =>
      refine ⟨⟨fun found hfound => ?_,
        List.pairwise_cons.mpr ⟨fun upper hupper => ?_, h.separated⟩⟩,
        rfl, fun found hfound => ?_⟩
      · rcases List.mem_cons.mp hfound with rfl | hfound
        · simp
        · exact h.nonempty found hfound
      · simp only [List.length_singleton]
        rcases List.mem_cons.mp hupper with rfl | hupper
        · omega
        · have hafter := hahead upper hupper
          omega
      · rcases List.mem_cons.mp hfound with rfl | hfound
        · exact Int.le_refl _
        · have hlater := hbelow found hfound
          omega

/-- Cells from the highest one down, put in front of runs above all of them. -/
theorem foldl_prependCell {cells : List (Int × UInt8)} {chunks : List Chunk}
    (hcells : cells.Pairwise fun upper lower => lower.1 < upper.1) (h : SeparatedRuns chunks)
    (hbelow : ∀ cell ∈ cells, ∀ chunk ∈ chunks, cell.1 < chunk.start) :
    SeparatedRuns (cells.foldl prependCell chunks) ∧
      (cells.foldl prependCell chunks).flatMap Chunk.cells =
        cells.reverse ++ chunks.flatMap Chunk.cells := by
  induction cells generalizing chunks with
  | nil => exact ⟨h, rfl⟩
  | cons cell rest ih =>
    obtain ⟨hfirst, hrest⟩ := List.pairwise_cons.mp hcells
    obtain ⟨hruns, hcontent, hstart⟩ :=
      prependCell_runs h (hbelow cell List.mem_cons_self)
    have hlower : ∀ lower ∈ rest, ∀ chunk ∈ prependCell chunks cell, lower.1 < chunk.start := by
      intro lower hlower chunk hchunk
      have habove := hfirst lower hlower
      have hfrom := hstart chunk hchunk
      omega
    obtain ⟨hall, hflat⟩ := ih hrest hruns hlower
    refine ⟨hall, ?_⟩
    rw [List.foldl_cons, hflat, hcontent, List.reverse_cons, List.append_assoc,
      List.singleton_append]

/-- The runs of a map are separated and hold its cells in ascending order. -/
theorem chunks_runs (map : ByteMap) :
    SeparatedRuns map.chunks ∧ map.chunks.flatMap Chunk.cells = map.cells.reverse := by
  have hempty : SeparatedRuns [] := ⟨by simp, .nil⟩
  obtain ⟨hruns, hcells⟩ := foldl_prependCell map.descending hempty (by simp)
  rw [List.flatMap_nil, List.append_nil] at hcells
  exact ⟨hruns, hcells⟩

end ByteMap

end Asm65816
