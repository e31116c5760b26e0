import Asm65816.Assembly

/-!
# Memory images

The segments of an assembly in one buffer: every segment lies at its file offset, and what no
segment covers has the unused value.
-/

namespace Asm65816

/-- `image` filled up to `length` bytes with `unused`. -/
def fillTo (length : Nat) (unused : UInt8) (image : List UInt8) : List UInt8 :=
  image ++ List.replicate (length - image.length) unused

/-- `image` with `bytes` from `position` on, whatever was there. -/
def overlay (unused : UInt8) (image : List UInt8) (position : Nat) (bytes : List UInt8) :
    List UInt8 :=
  let filled := fillTo (position + bytes.length) unused image
  filled.take position ++ bytes ++ filled.drop (position + bytes.length)

/-- The position of a chunk in the image, unless it lies before the image. -/
def chunkPosition? (segment : SegmentCode) (chunk : Chunk) : Option Nat :=
  let position := segment.fileOffset + chunk.start - segment.start
  if 0 ≤ position then some position.toNat else none

/-- Puts a chunk into the image. A chunk before the image is left out. -/
def placeChunk (unused : UInt8) (segment : SegmentCode) (image : List UInt8) (chunk : Chunk) :
    List UInt8 :=
  match chunkPosition? segment chunk with
  | some position => overlay unused image position chunk.bytes
  | none => image

/-- Puts a segment into the image, which reaches at least to the offset of the segment. -/
def placeSegment (unused : UInt8) (image : List UInt8) (segment : SegmentCode) : List UInt8 :=
  segment.chunks.foldl (placeChunk unused segment)
    (fillTo segment.fileOffset.toNat unused image)

/-- The segments that are part of the image, by ascending file offset. -/
def presentSegments (segments : Table SegmentCode) : List SegmentCode :=
  ((segments.map Prod.snd).filter fun segment => decide (0 ≤ segment.fileOffset)).mergeSort
    fun first second => decide (first.fileOffset ≤ second.fileOffset)

/-- The image of the segments. Where segments overlap, the one of the greater offset wins. -/
def memoryImage (segments : Table SegmentCode) (unused : UInt8) : List UInt8 :=
  (presentSegments segments).foldl (placeSegment unused) []

end Asm65816
