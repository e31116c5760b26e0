import Asm65816.Pieces
import Asm65816.Table
import Asm65816.Text.Digits
import Asm65816.Text.Letters

/-!
# Listings

A listing shows where the bytes of a program lie and which statement they come from. Every
segment has blocks of its own; changing the segment or the origin opens another block. Blocks
are shown in the order of the addresses they start at, so that a listing follows memory and not
the source.
-/

namespace Asm65816

/-- The column of the instruction in a row, counted from one. -/
def instructionColumn : Nat := 32

/-- The number of characters in front of a comment on the right. -/
def commentColumn : Nat := 52

/-- The number of characters in front of a line on the left: the width of an address. -/
def leftMargin : Nat := 8

/-- `BB:AAAA bytes   instruction   comment`. The instruction and the comment have columns of their
own, unless what stands before them is already longer; lengths are in UTF-8 bytes. -/
def renderRow (address : Int) (bytes : List UInt8) (instruction : String)
    (comment : Option String) : String :=
  let shown := joinWith " " (bytes.map hexByte)
  let place := hexWord 2 (address / 65536 % 256) ++ ":" ++ hexWord 4 (address % 65536) ++ " "
  let gap := blanks (instructionColumn - 1 - leftMargin - shown.length)
  let row := place ++ shown ++ gap ++ instruction
  match comment with
  | some text => row ++ blanks (commentColumn - row.utf8ByteSize) ++ text ++ "\n"
  | none => row ++ "\n"

/-- Rows of data at consecutive addresses; only the first one names the instruction. -/
def dataRows (address : Int) (instruction : String) : List (List UInt8) → List String
  | [] => []
  | bytes :: rest =>
    renderRow address bytes instruction none :: dataRows (address + bytes.length) "" rest

/-- Data in rows of at most four bytes. -/
def renderData (address : Int) (bytes : List UInt8) (instruction : String) : String :=
  String.join (dataRows address instruction (pieces 4 bytes))

/-- Something that is shown in a block. -/
inductive ListingItem where
  | text (content : String)
  | row (address : Int) (bytes : List UInt8) (instruction : String) (comment : Option String)
  /-- Data in rows of at most four bytes. -/
  | data (address : Int) (bytes : List UInt8) (instruction : String)
  | rightComment (content : String)
  | leftLine (content : String)
  deriving Repr, Inhabited

namespace ListingItem

/-- An item as it is shown. -/
def render : ListingItem → String
  | text content => content
  | row address bytes instruction comment => renderRow address bytes instruction comment
  | data address bytes instruction => renderData address bytes instruction
  | rightComment content => blanks commentColumn ++ content ++ "\n"
  | leftLine content => blanks leftMargin ++ content ++ "\n"

end ListingItem

/-- What is shown for a stretch of code that starts at `address`. -/
structure ListingBlock where
  address : Int
  items : List ListingItem
  deriving Repr, Inhabited

namespace ListingBlock

/-- A block as it is shown. -/
def render (block : ListingBlock) : String := String.join (block.items.map ListingItem.render)

end ListingBlock

/-- What is shown in front of all segments, and the blocks of each segment in the order in which
they were opened. -/
structure Listing where
  header : String
  segments : Table (List ListingBlock)

namespace Listing

/-- Nothing to show. -/
def empty : Listing := ⟨"", []⟩

/-- Adds a text to the header. -/
def addHeader (listing : Listing) (text : String) : Listing :=
  { listing with header := listing.header ++ text }

/-- The blocks of a segment. -/
def blocks (listing : Listing) (segment : String) : List ListingBlock :=
  (listing.segments.get? segment).getD []

/-- Opens a block of a segment. -/
def openBlock (listing : Listing) (segment : String) (address : Int) : Listing :=
  { listing with
    segments := listing.segments.put segment (listing.blocks segment ++ [⟨address, []⟩]) }

/-- The blocks with an item at the end of the last one; the first item of a segment opens a block
at its address. -/
def extendLast (address : Int) (item : ListingItem) : List ListingBlock → List ListingBlock
  | [] => [⟨address, [item]⟩]
  | [block] => [{ block with items := block.items ++ [item] }]
  | block :: rest => block :: extendLast address item rest

/-- Adds an item to the open block of a segment. -/
def addItem (listing : Listing) (segment : String) (address : Int) (item : ListingItem) :
    Listing :=
  { listing with
    segments := listing.segments.put segment (extendLast address item (listing.blocks segment)) }

/-- The blocks of a segment by ascending address; blocks of one address stay in order. -/
def orderedBlocks (listing : Listing) (segment : String) : List ListingBlock :=
  (listing.blocks segment).mergeSort fun first second => decide (first.address ≤ second.address)

/-- The text of a listing: the header, and each of the given segments once. -/
def render (listing : Listing) (order : List String) : String :=
  let shown := order.eraseDups.flatMap listing.orderedBlocks
  listing.header ++ String.join (shown.map ListingBlock.render)

end Listing

end Asm65816
