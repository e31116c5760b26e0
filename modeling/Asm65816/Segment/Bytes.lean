/-!
# Placed bytes

The bytes of a segment by address. Cells are kept from the highest address down, so that code
written in ascending order is added at the front, and reading them out builds the runs of
consecutive bytes from the last one to the first.
-/

namespace Asm65816

/-- A run of bytes at consecutive addresses. -/
structure Chunk where
  start : Int
  bytes : List UInt8
  deriving DecidableEq, Repr, Inhabited

/-- Bytes by address, the highest address first and no address twice. -/
structure ByteMap where
  cells : List (Int × UInt8)
  descending : cells.Pairwise fun upper lower => lower.1 < upper.1

namespace ByteMap

/-- No bytes. -/
def empty : ByteMap := ⟨[], .nil⟩

/-- The byte at an address. -/
def get? (map : ByteMap) (address : Int) : Option UInt8 :=
  match map.cells.dropWhile fun cell => address < cell.1 with
  | (found, byte) :: _ => if found = address then some byte else none
  | [] => none

theorem lt_of_mem_takeWhile {address : Int} {cells : List (Int × UInt8)} {cell : Int × UInt8}
    (h : cell ∈ cells.takeWhile fun c => address < c.1) : address < cell.1 := by
  simpa using List.all_eq_true.1 List.all_takeWhile cell h

theorem lt_of_mem_dropWhile {address : Int} {cells : List (Int × UInt8)} {cell : Int × UInt8}
    (ordered : cells.Pairwise fun upper lower => lower.1 < upper.1)
    (h : cell ∈ cells.dropWhile fun c => address ≤ c.1) : cell.1 < address := by
  induction cells with
  | nil => simp at h
  | cons first rest ih =>
    rw [List.pairwise_cons] at ordered
    by_cases hfirst : address ≤ first.1
    · simp only [List.dropWhile_cons, hfirst, decide_true, ite_true] at h
      exact ih ordered.2 h
    · simp only [List.dropWhile_cons, hfirst, decide_false, Bool.false_eq_true, ite_false,
        List.mem_cons] at h
      rcases h with rfl | h
      · omega
      · have := ordered.1 cell h
        omega

/-- The map with `byte` at `address`, whatever was there. -/
def insert (map : ByteMap) (address : Int) (byte : UInt8) : ByteMap where
  cells :=
    map.cells.takeWhile (fun cell => address < cell.1) ++
      (address, byte) :: map.cells.dropWhile fun cell => address ≤ cell.1
  descending := by
    rw [List.pairwise_append, List.pairwise_cons]
    refine ⟨map.descending.sublist (List.takeWhile_sublist _),
      ⟨fun cell h => lt_of_mem_dropWhile map.descending h,
        map.descending.sublist (List.dropWhile_sublist _)⟩, fun upper hupper lower hlower => ?_⟩
    have habove := lt_of_mem_takeWhile hupper
    rcases List.mem_cons.1 hlower with rfl | hlower
    · exact habove
    · have := lt_of_mem_dropWhile map.descending hlower
      omega

/-- Writes bytes from `address` up and stops at the first address that is taken, which gets the
new byte as well; that address. -/
def write (map : ByteMap) (address : Int) : List UInt8 → ByteMap × Option Int
  | [] => (map, none)
  | byte :: rest =>
    let written := map.insert address byte
    match map.get? address with
    | some _ => (written, some address)
    | none => written.write (address + 1) rest

/-- Puts a cell in front of the runs that lie above it. -/
def prependCell (chunks : List Chunk) (cell : Int × UInt8) : List Chunk :=
  match chunks with
  | chunk :: rest =>
    if chunk.start = cell.1 + 1 then ⟨cell.1, cell.2 :: chunk.bytes⟩ :: rest
    else ⟨cell.1, [cell.2]⟩ :: chunk :: rest
  | [] => [⟨cell.1, [cell.2]⟩]

/-- The bytes as runs in ascending order, split wherever an address is free. -/
def chunks (map : ByteMap) : List Chunk := map.cells.foldl prependCell []

end ByteMap

end Asm65816
