import Asm65816.Pieces
import Asm65816.Text.Digits

/-!
# Intel HEX

An image as lines of text: records of sixteen bytes with their address in the current bank of
64 KiB, a record for the bank whenever it changes, and a record for the end. The bytes of every
record, its checksum included, add up to zero.
-/

namespace Asm65816

/-- What a record is for. -/
inductive HexRecordKind where
  | data
  | endOfFile
  /-- The upper sixteen bits of the addresses of the records that follow. -/
  | upperAddress
  deriving DecidableEq, Repr, Inhabited

namespace HexRecordKind

/-- The number of a kind. -/
def code : HexRecordKind → UInt8
  | data => 0
  | endOfFile => 1
  | upperAddress => 4

end HexRecordKind

/-- One line of a file. -/
structure HexRecord where
  kind : HexRecordKind
  /-- The address within its bank. -/
  address : Nat
  data : List UInt8
  deriving DecidableEq, Repr, Inhabited

namespace HexRecord

/-- A number of two bytes, the more significant one first. -/
def bigEndian (value : Nat) : List UInt8 := [UInt8.ofNat (value / 256), UInt8.ofNat value]

/-- The bytes of a record in front of its checksum. -/
def body (record : HexRecord) : List UInt8 :=
  UInt8.ofNat record.data.length :: bigEndian record.address ++ record.kind.code :: record.data

/-- The byte that makes the sum of a record zero. -/
def checksum (bytes : List UInt8) : UInt8 := 0 - bytes.foldl (· + ·) 0

/-- A record as a line of text. -/
def render (record : HexRecord) : String :=
  let bytes := record.body ++ [checksum record.body]
  ":" ++ String.join (bytes.map hexByte) ++ "\n"

end HexRecord

/-- The number of bytes in a full record. -/
def recordLength : Nat := 16

/-- The records of an image from `offset` on, cut into pieces, when `bank` is in effect. Pieces
that hold nothing but `stripped` are left out. -/
def hexRecordsFrom (stripped : Option UInt8) (offset bank : Nat) :
    List (List UInt8) → List HexRecord
  | [] => [⟨.endOfFile, 0, []⟩]
  | data :: rest =>
    let next := offset + recordLength
    if stripped.elim false fun unused => data.all (· == unused) then
      hexRecordsFrom stripped next bank rest
    else
      let here := offset / 65536
      let change :=
        if here = bank then [] else [⟨.upperAddress, 0, HexRecord.bigEndian (here % 65536)⟩]
      change ++ ⟨.data, offset % 65536, data⟩ :: hexRecordsFrom stripped next here rest

/-- The records of an image, addressed from zero. -/
def hexRecords (image : List UInt8) (stripped : Option UInt8) : List HexRecord :=
  hexRecordsFrom stripped 0 0 (pieces recordLength image)

/-- An image as Intel HEX text. With `strip`, records of unused bytes only are left out. -/
def intelHex (image : List UInt8) (strip : Bool) (unused : UInt8) : String :=
  String.join ((hexRecords image (if strip then some unused else none)).map HexRecord.render)

end Asm65816
