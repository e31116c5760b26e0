import Asm65816.Fault
import Asm65816.Label
import Asm65816.Segment.Bytes
import Asm65816.Table

/-!
# Segments

A range of addresses that code is placed in, with the labels declared and referred to there and
the bytes written so far. A segment remembers where its code ended, so that a program can leave
it and come back.
-/

namespace Asm65816

/-- A segment. -/
structure Segment where
  name : String
  start : Int
  size : Int
  /-- Where the segment lies in the output image; negative when it is no part of it. -/
  fileOffset : Int
  location : Location
  /-- Whether every later label of the segment is global. -/
  globalAll : Bool
  /-- The address after the last code placed here. -/
  resume : Int
  bytes : ByteMap
  labels : Table Label
  references : List Reference

namespace Segment

/-- A segment without code. -/
def new (name : String) (start size fileOffset : Int) (location : Location) : Segment :=
  ⟨name, start, size, fileOffset, location, false, start, ByteMap.empty, [], []⟩

/-- The first address after the segment. -/
def limit (segment : Segment) : Int := segment.start + segment.size

/-- The declaration of a label. -/
def label? (segment : Segment) (name : String) : Option Label := segment.labels.get? name

/-- Declares a label, in place of an earlier declaration of the same name. -/
def declare (segment : Segment) (name : String) (address : Int) (location : Location) : Segment :=
  { segment with labels := segment.labels.put name ⟨[address], location⟩ }

/-- Adds an address to a label that is declared. -/
def redeclare (segment : Segment) (name : String) (address : Int) : Segment :=
  { segment with
    labels := segment.labels.alter name fun label =>
      { label with addresses := insertAddress address label.addresses } }

/-- Records the use of a name. -/
def refer (segment : Segment) (name : String) (address : Int) (location : Location) : Segment :=
  { segment with references := segment.references ++ [⟨name, address, location⟩] }

/-- Writes bytes, and says at which address a byte was already written. -/
def write (segment : Segment) (address : Int) (bytes : List UInt8) : Segment × Option Fault :=
  let (written, clash) := segment.bytes.write address bytes
  ({ segment with bytes := written }, clash.map (Fault.byteOverlap segment.name))

/-- The segment without its bytes. -/
def clear (segment : Segment) : Segment := { segment with bytes := ByteMap.empty }

/-- The bytes as runs in ascending order. -/
def chunks (segment : Segment) : List Chunk := segment.bytes.chunks

end Segment

end Asm65816
