import Mathlib.Data.List.Permutation
import Asm65816.Output.Image
import Asm65816.Proofs.KeyOrder

/-!
# The layout of memory images

An image is determined by the places of its chunks. It ends where the last chunk or the last file
offset does, and every position has the byte of the last chunk that covers it. Chunks that have no
position in common are all found in the image, in whichever order the segments are given.
-/

namespace Asm65816

/-- Bytes at a position of an image. -/
structure Placement where
  position : Nat
  bytes : List UInt8
  deriving DecidableEq, Repr

namespace Placement

/-- The position behind the last byte. -/
def stop (placement : Placement) : Nat := placement.position + placement.bytes.length

/-- The byte at a position, if it is covered. -/
def byteAt? (placement : Placement) (index : Nat) : Option UInt8 :=
  if placement.position ≤ index then placement.bytes[index - placement.position]? else none

/-- Two placements with no position in common. -/
def Apart (first second : Placement) : Prop :=
  ∀ index, first.byteAt? index = none ∨ second.byteAt? index = none

theorem byteAt?_eq_none {placement : Placement} {index : Nat} :
    placement.byteAt? index = none ↔ index < placement.position ∨ placement.stop ≤ index := by
  unfold byteAt? stop
  split
  · rw [List.getElem?_eq_none_iff]
    omega
  · simp only [true_iff]
    omega

theorem Apart.symm {first second : Placement} (h : first.Apart second) : second.Apart first :=
  fun index => (h index).symm

/-- Placements of which one ends before the other begins. -/
theorem apart_of_stop_le {first second : Placement} (h : first.stop ≤ second.position) :
    first.Apart second := by
  intro index
  rw [byteAt?_eq_none, byteAt?_eq_none]
  omega

end Placement

/-- Where a chunk of a segment lies in the image, unless it lies before the image. -/
def SegmentCode.placement? (segment : SegmentCode) (chunk : Chunk) : Option Placement :=
  let position := segment.fileOffset + chunk.start - segment.start
  if 0 ≤ position then some ⟨position.toNat, chunk.bytes⟩ else none

/-- The placements of the chunks of a segment. -/
def SegmentCode.placements (segment : SegmentCode) : List Placement :=
  segment.chunks.filterMap segment.placement?

/-- The positions to which an image with a segment extends. -/
def SegmentCode.ends (segment : SegmentCode) : List Nat :=
  segment.fileOffset.toNat :: segment.placements.map Placement.stop

/-- The greatest of some positions, and zero if there are none. -/
def furthest (positions : List Nat) : Nat := positions.foldl max 0

/-- The byte at a position, of the last placement that covers it. -/
def lastByte? (placements : List Placement) (index : Nat) : Option UInt8 :=
  placements.reverse.findSome? fun placement => placement.byteAt? index

/-- Segments by ascending file offset. Those of one offset stand as in the table, and those with a
negative offset are left out. -/
structure StablyOrdered (segments : Table SegmentCode) (ordered : List SegmentCode) : Prop where
  ascending : ordered.Pairwise fun first second => first.fileOffset ≤ second.fileOffset
  kept : ∀ offset : Int, (ordered.filter fun segment => segment.fileOffset = offset) =
    if 0 ≤ offset then (segments.map Prod.snd).filter fun segment => segment.fileOffset = offset
    else []

/-! ## The order of the segments -/

/-- The segments of the image are in the stable order. -/
theorem presentSegments_stablyOrdered (segments : Table SegmentCode) :
    StablyOrdered segments (presentSegments segments) := by
  refine ⟨pairwise_mergeSort_on SegmentCode.fileOffset _, fun offset => ?_⟩
  rw [presentSegments, filter_mergeSort_on SegmentCode.fileOffset, List.filter_filter]
  split
  case isTrue hoffset =>
    refine List.filter_congr fun segment _ => ?_
    rw [Bool.and_eq_left_iff_imp]
    intro h
    rw [of_decide_eq_true h, decide_eq_true hoffset]
  case isFalse hoffset =>
    refine List.filter_eq_nil_iff.mpr fun segment _ h => ?_
    obtain ⟨hkey, hpresent⟩ := Bool.and_eq_true_iff.mp h
    rw [of_decide_eq_true hkey] at hpresent
    exact hoffset (of_decide_eq_true hpresent)

/-- There is no other stable order. -/
theorem stablyOrdered_iff {segments : Table SegmentCode} {ordered : List SegmentCode} :
    StablyOrdered segments ordered ↔ ordered = presentSegments segments := by
  constructor
  · intro h
    have hpresent := presentSegments_stablyOrdered segments
    exact eq_of_filter_eq SegmentCode.fileOffset h.ascending hpresent.ascending
      fun offset => (h.kept offset).trans (hpresent.kept offset).symm
  · rintro rfl
    exact presentSegments_stablyOrdered segments

theorem presentSegments_perm {first second : Table SegmentCode} (h : first.Perm second) :
    (presentSegments first).Perm (presentSegments second) := by
  have hfiltered := (h.map Prod.snd).filter fun segment => decide (0 ≤ segment.fileOffset)
  exact (List.mergeSort_perm _ _).trans (hfiltered.trans (List.mergeSort_perm _ _).symm)

/-! ## Positions and bytes -/

theorem furthest_append (first second : List Nat) :
    furthest (first ++ second) = second.foldl max (furthest first) :=
  List.foldl_append

theorem furthest_perm {first second : List Nat} (h : first.Perm second) :
    furthest first = furthest second :=
  h.foldl_eq' (fun _ _ _ _ _ => by omega) 0

theorem lastByte?_append_singleton (placements : List Placement) (placement : Placement)
    (index : Nat) :
    lastByte? (placements ++ [placement]) index =
      (placement.byteAt? index).or (lastByte? placements index) := by
  unfold lastByte?
  rw [List.reverse_append, List.findSome?_append]
  simp

theorem lastByte?_eq_none {placements : List Placement} {index : Nat} :
    lastByte? placements index = none ↔
      ∀ placement ∈ placements, placement.byteAt? index = none := by
  simp [lastByte?]

/-- Of placements that are apart, each gives the bytes at its positions. -/
theorem lastByte?_eq_some {placements : List Placement}
    (hapart : placements.Pairwise Placement.Apart) {index : Nat} {byte : UInt8} :
    lastByte? placements index = some byte ↔
      ∃ placement ∈ placements, placement.byteAt? index = some byte := by
  constructor
  · intro h
    obtain ⟨placement, hmem, hbyte⟩ := List.exists_of_findSome?_eq_some h
    exact ⟨placement, List.mem_reverse.mp hmem, hbyte⟩
  · rintro ⟨placement, hmem, hbyte⟩
    obtain ⟨before, after, rfl⟩ := List.append_of_mem hmem
    have hlater : ∀ other ∈ after, other.byteAt? index = none := by
      intro other hother
      have hrest := (List.pairwise_append.mp hapart).2.1
      refine ((List.pairwise_cons.mp hrest).1 other hother index).resolve_left ?_
      rw [hbyte]
      exact Option.some_ne_none byte
    simp [lastByte?, hbyte, List.findSome?_eq_none_iff.mpr fun other hother =>
      hlater other (List.mem_reverse.mp hother)]

/-- The order of placements that are apart does not count. -/
theorem lastByte?_perm {first second : List Placement} (h : first.Perm second)
    (hapart : first.Pairwise Placement.Apart) (index : Nat) :
    lastByte? first index = lastByte? second index := by
  have hapart' := (h.pairwise_iff fun {_ _} => Placement.Apart.symm).mp hapart
  ext byte
  rw [lastByte?_eq_some hapart, lastByte?_eq_some hapart']
  simp only [h.mem_iff]

/-! ## Laying out -/

/-- An image of the given length that shows some placements. -/
def picture (unused : UInt8) (length : Nat) (placements : List Placement) : List UInt8 :=
  (List.range length).map fun index => (lastByte? placements index).getD unused

section Laying

variable {unused : UInt8} {length : Nat} {placements : List Placement}

theorem length_picture : (picture unused length placements).length = length := by
  simp [picture]

theorem getElem?_picture (index : Nat) : (picture unused length placements)[index]? =
    if index < length then some ((lastByte? placements index).getD unused) else none := by
  unfold picture
  rw [List.getElem?_map]
  split
  case isTrue h => rw [List.getElem?_range h, Option.map_some]
  case isFalse h => rw [List.getElem?_eq_none (by simpa using h), Option.map_none]

/-- A placement that is apart from the others is found in the image. -/
theorem take_drop_picture (hapart : placements.Pairwise Placement.Apart) {placement : Placement}
    (hmem : placement ∈ placements) (hwithin : placement.stop ≤ length) :
    ((picture unused length placements).drop placement.position).take placement.bytes.length =
      placement.bytes := by
  refine List.ext_getElem? fun index => ?_
  rw [List.getElem?_take, List.getElem?_drop, getElem?_picture]
  by_cases hindex : index < placement.bytes.length
  · have hinside : placement.position + index < length := by
      unfold Placement.stop at hwithin
      omega
    have hbyte : placement.byteAt? (placement.position + index) = placement.bytes[index]? := by
      rw [Placement.byteAt?, if_pos (Nat.le_add_right _ _), Nat.add_sub_cancel_left]
    have hshown := (lastByte?_eq_some hapart).mpr
      ⟨placement, hmem, hbyte.trans (List.getElem?_eq_getElem hindex)⟩
    simp only [hindex, hinside, if_true, hshown, Option.getD_some]
    exact (List.getElem?_eq_getElem hindex).symm
  · simp only [hindex, if_false]
    exact (List.getElem?_eq_none (by omega)).symm

/-- Filling up lengthens the image. -/
theorem fillTo_picture (hwithin : ∀ placement ∈ placements, placement.stop ≤ length)
    (count : Nat) : fillTo count unused (picture unused length placements) =
      picture unused (max length count) placements := by
  refine List.ext_getElem? fun index => ?_
  rw [fillTo, getElem?_picture, List.getElem?_append, length_picture, getElem?_picture,
    List.getElem?_replicate]
  by_cases hindex : index < length
  · have hlonger : index < max length count := by omega
    simp only [hindex, hlonger, if_true]
  · have hnone : lastByte? placements index = none :=
      lastByte?_eq_none.mpr fun placement hmem =>
        Placement.byteAt?_eq_none.mpr (.inr (by have := hwithin placement hmem; omega))
    have hsame : index - length < count - length ↔ index < max length count := by omega
    simp only [hindex, if_false, hnone, Option.getD_none, hsame]

/-- Putting bytes into the image adds a placement. -/
theorem overlay_picture (hwithin : ∀ placement ∈ placements, placement.stop ≤ length)
    (placement : Placement) :
    overlay unused (picture unused length placements) placement.position placement.bytes =
      picture unused (max length placement.stop) (placements ++ [placement]) := by
  have hstop : placement.position + placement.bytes.length = placement.stop := rfl
  refine List.ext_getElem? fun index => ?_
  rw [overlay, hstop, fillTo_picture hwithin, getElem?_picture, lastByte?_append_singleton,
    List.getElem?_append, List.getElem?_append, List.length_append, List.length_take,
    length_picture, List.getElem?_take, List.getElem?_drop, getElem?_picture, getElem?_picture]
  have hcut : min placement.position (max length placement.stop) = placement.position := by omega
  rw [hcut, hstop]
  by_cases hbefore : index < placement.position
  · have hwithout : placement.byteAt? index = none := Placement.byteAt?_eq_none.mpr (.inl hbefore)
    have hless : index < placement.stop := by omega
    simp only [hless, hbefore, if_true, hwithout, Option.none_or]
  · by_cases hless : index < placement.stop
    · have hlonger : index < max length placement.stop := by omega
      have hinside : index - placement.position < placement.bytes.length := by omega
      have hbyte : placement.byteAt? index =
          some (placement.bytes.get ⟨index - placement.position, hinside⟩) := by
        rw [Placement.byteAt?, if_pos (by omega)]
        exact List.getElem?_eq_getElem hinside
      simp only [hless, hbefore, hlonger, if_true, if_false, hbyte, Option.some_or,
        Option.getD_some]
      exact List.getElem?_eq_getElem hinside
    · have hwithout : placement.byteAt? index = none :=
        Placement.byteAt?_eq_none.mpr (.inr (by omega))
      have hshift : placement.stop + (index - placement.stop) = index := by omega
      simp only [hless, if_false, hshift, hwithout, Option.none_or]

end Laying

/-! ## Whole images -/

/-- The image shows some placements and extends to the given positions, which are not before the
end of a placement. -/
structure Pictures (unused : UInt8) (image : List UInt8) (ends : List Nat)
    (placements : List Placement) : Prop where
  eq : image = picture unused (furthest ends) placements
  within : ∀ placement ∈ placements, placement.stop ≤ furthest ends

namespace Pictures

variable {unused : UInt8} {image : List UInt8} {ends : List Nat} {placements : List Placement}

theorem fillTo (h : Pictures unused image ends placements) (count : Nat) :
    Pictures unused (fillTo count unused image) (ends ++ [count]) placements := by
  refine ⟨?_, fun placement hmem => ?_⟩
  · rw [h.eq, fillTo_picture h.within, furthest_append]
    rfl
  · rw [furthest_append]
    exact Nat.le_trans (h.within placement hmem) (Nat.le_max_left _ _)

theorem overlay (h : Pictures unused image ends placements) (placement : Placement) :
    Pictures unused (overlay unused image placement.position placement.bytes)
      (ends ++ [placement.stop]) (placements ++ [placement]) := by
  refine ⟨?_, fun other hmem => ?_⟩
  · rw [h.eq, overlay_picture h.within, furthest_append]
    rfl
  · rw [furthest_append]
    rcases List.mem_append.mp hmem with hold | hnew
    · exact Nat.le_trans (h.within other hold) (Nat.le_max_left _ _)
    · rw [List.mem_singleton.mp hnew]
      exact Nat.le_max_right _ _

theorem placeChunk (h : Pictures unused image ends placements) (segment : SegmentCode)
    (chunk : Chunk) :
    Pictures unused (placeChunk unused segment image chunk)
      (ends ++ (segment.placement? chunk).toList.map Placement.stop)
      (placements ++ (segment.placement? chunk).toList) := by
  unfold Asm65816.placeChunk chunkPosition? SegmentCode.placement?
  by_cases hposition : 0 ≤ segment.fileOffset + chunk.start - segment.start
  · simp only [hposition, if_true]
    exact h.overlay ⟨_, chunk.bytes⟩
  · simp only [hposition, if_false]
    simpa using h

/-- The chunks of a segment are put into the image one after the other. -/
theorem placeChunks (h : Pictures unused image ends placements) (segment : SegmentCode)
    (chunks : List Chunk) :
    Pictures unused (chunks.foldl (Asm65816.placeChunk unused segment) image)
      (ends ++ (chunks.filterMap segment.placement?).map Placement.stop)
      (placements ++ chunks.filterMap segment.placement?) := by
  induction chunks generalizing image ends placements with
  | nil => simpa using h
  | cons chunk rest ih =>
    have hrest := ih (h.placeChunk segment chunk)
    rw [List.append_assoc, List.append_assoc, ← List.map_append] at hrest
    have hcons : (chunk :: rest).filterMap segment.placement? =
        (segment.placement? chunk).toList ++ rest.filterMap segment.placement? := by
      rw [List.filterMap_cons]
      split <;> simp [*]
    rwa [hcons]

theorem placeSegment (h : Pictures unused image ends placements) (segment : SegmentCode) :
    Pictures unused (placeSegment unused image segment) (ends ++ segment.ends)
      (placements ++ segment.placements) := by
  have hfilled := (h.fillTo segment.fileOffset.toNat).placeChunks segment segment.chunks
  rwa [List.append_assoc] at hfilled

theorem placeSegments (h : Pictures unused image ends placements) (segments : List SegmentCode) :
    Pictures unused (segments.foldl (Asm65816.placeSegment unused) image)
      (ends ++ segments.flatMap SegmentCode.ends)
      (placements ++ segments.flatMap SegmentCode.placements) := by
  induction segments generalizing image ends placements with
  | nil => simpa using h
  | cons segment rest ih =>
    rw [List.flatMap_cons, List.flatMap_cons, ← List.append_assoc, ← List.append_assoc]
    exact ih (h.placeSegment segment)

end Pictures

/-- The image of a table shows the placements of its segments in their order. -/
theorem memoryImage_pictures (segments : Table SegmentCode) (unused : UInt8) :
    Pictures unused (memoryImage segments unused)
      ((presentSegments segments).flatMap SegmentCode.ends)
      ((presentSegments segments).flatMap SegmentCode.placements) := by
  have hempty : Pictures unused [] [] [] := ⟨rfl, fun _ hmem => absurd hmem List.not_mem_nil⟩
  exact hempty.placeSegments (presentSegments segments)

/-- The image of a table whose placements are apart does not depend on the order of the table. -/
theorem memoryImage_perm {first second : Table SegmentCode} (h : first.Perm second)
    (hapart : ((presentSegments first).flatMap SegmentCode.placements).Pairwise Placement.Apart)
    (unused : UInt8) : memoryImage first unused = memoryImage second unused := by
  have hordered := presentSegments_perm h
  have hends := furthest_perm (hordered.flatMap_right SegmentCode.ends)
  have hbytes := lastByte?_perm (hordered.flatMap_right SegmentCode.placements) hapart
  rw [(memoryImage_pictures first unused).eq, (memoryImage_pictures second unused).eq, hends]
  exact List.map_congr_left fun index _ => congrArg (·.getD unused) (hbytes index)

/-- The memory image is the segments at their file offsets. There is one stable order of the
segments by their offsets. The image extends to the greatest of the offsets and of the ends of the
placed chunks, and every position has the byte of the last chunk in this order that covers it, or
the unused byte. When no two chunks cover one position, every chunk is found in the image, and
another order of the table gives the same image. -/
theorem memoryImage_layout (segments : Table SegmentCode) (unused : UInt8) :
    ∃ ordered, (∀ other, StablyOrdered segments other ↔ other = ordered) ∧
      (memoryImage segments unused).length = furthest (ordered.flatMap SegmentCode.ends) ∧
      (∀ index (_ : index < (memoryImage segments unused).length),
        (memoryImage segments unused)[index] =
          (lastByte? (ordered.flatMap SegmentCode.placements) index).getD unused) ∧
      ((ordered.flatMap SegmentCode.placements).Pairwise Placement.Apart →
        (∀ placement ∈ ordered.flatMap SegmentCode.placements,
          ((memoryImage segments unused).drop placement.position).take placement.bytes.length =
            placement.bytes) ∧
        ∀ other : Table SegmentCode, other.Perm segments →
          memoryImage other unused = memoryImage segments unused) := by
  have himage := memoryImage_pictures segments unused
  refine ⟨presentSegments segments, fun _ => stablyOrdered_iff, ?_, ?_, ?_⟩
  · rw [himage.eq, length_picture]
  · intro index hindex
    have hwithin := hindex
    rw [himage.eq, length_picture] at hwithin
    rw [List.getElem_eq_iff, himage.eq, getElem?_picture, if_pos hwithin]
  · intro hapart
    refine ⟨fun placement hmem => ?_, fun other hperm => ?_⟩
    · rw [himage.eq]
      exact take_drop_picture hapart hmem (himage.within placement hmem)
    · exact (memoryImage_perm hperm.symm hapart unused).symm

/-- The vectors stand before the code in the table and behind it in the image. A chunk below the
start of the code is left out, and so is the zero page, which has no offset. -/
theorem memoryImage_layout_twoSegments :
    ∃ segments : Table SegmentCode, segments =
        [("vectors", ⟨0xFFFA, 6, 4, [⟨0xFFFC, [0x00, 0xC0]⟩]⟩), ("zero", ⟨0, 256, -1, [⟨0, [1]⟩]⟩),
          ("code", ⟨0xC000, 256, 0, [⟨0xBFFF, [9]⟩, ⟨0xC000, [0x4C, 0x00]⟩]⟩)] ∧
      ∃ ordered, StablyOrdered segments ordered ∧
        (ordered.flatMap SegmentCode.placements).Pairwise Placement.Apart ∧
        (memoryImage segments 0xFF).length = 8 ∧
        ((memoryImage segments 0xFF).drop 6).take 2 = [0x00, 0xC0] ∧
        memoryImage segments.reverse 0xFF = memoryImage segments 0xFF := by
  refine ⟨_, rfl, ?_⟩
  obtain ⟨ordered, hordered, hlength, -, hapart⟩ := memoryImage_layout
    [("vectors", ⟨0xFFFA, 6, 4, [⟨0xFFFC, [0x00, 0xC0]⟩]⟩), ("zero", ⟨0, 256, -1, [⟨0, [1]⟩]⟩),
      ("code", ⟨0xC000, 256, 0, [⟨0xBFFF, [9]⟩, ⟨0xC000, [0x4C, 0x00]⟩]⟩)] 0xFF
  have hpresent := (hordered _).mp (presentSegments_stablyOrdered _)
  have hplacements : ordered.flatMap SegmentCode.placements =
      [⟨0, [0x4C, 0x00]⟩, ⟨6, [0x00, 0xC0]⟩] := by
    rw [← hpresent]
    cbv
  have hseparate : (ordered.flatMap SegmentCode.placements).Pairwise Placement.Apart := by
    rw [hplacements]
    exact List.pairwise_pair.mpr (Placement.apart_of_stop_le (by decide))
  obtain ⟨hfound, hperm⟩ := hapart hseparate
  refine ⟨ordered, (hordered ordered).mpr rfl, hseparate, ?_, ?_, ?_⟩
  · rw [hlength, ← hpresent]
    cbv
  · exact hfound ⟨6, [0x00, 0xC0]⟩ (by rw [hplacements]; decide)
  · exact hperm _ (List.reverse_perm _)

end Asm65816
