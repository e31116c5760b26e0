/-!
# Places in source text

Every file read during one assembly is registered in the order in which it was reached, and all
places are byte offsets into the UTF-8 text of one of these files.
-/

namespace Asm65816

/-- A byte range within one registered source. -/
structure Span where
  source : Nat
  start : Nat
  stop : Nat
  deriving DecidableEq, Repr, Inhabited

/-- A value together with the place it was read from. -/
structure Spanned (α : Type) where
  node : α
  span : Span
  deriving Repr, Inhabited

/-- A file of the assembly. -/
structure SourceFile where
  name : String
  text : String
  deriving Repr, Inhabited

/-- The files of the assembly: the main one first, then each included file every time it is
included. A source is named by its position. -/
abbrev Sources := List SourceFile

/-- The offsets just after each newline of a text that starts at byte `offset`. -/
def offsetsAfterNewlines (offset : Nat) : List Char → List Nat
  | [] => []
  | c :: rest =>
    let next := offset + c.utf8Size
    if c = '\n' then next :: offsetsAfterNewlines next rest else offsetsAfterNewlines next rest

namespace SourceFile

/-- The byte offsets at which lines start. -/
def lineStarts (file : SourceFile) : List Nat := 0 :: offsetsAfterNewlines 0 file.text.toList

/-- The line and column of a byte offset, both counted from one and the column in bytes. -/
def lineColumn (file : SourceFile) (offset : Nat) : Nat × Nat :=
  let started := file.lineStarts.filter (· ≤ offset)
  (started.length, offset - started.getLastD 0 + 1)

end SourceFile

namespace Sources

/-- `file:line:column` of an offset in a registered source. -/
def position? (sources : Sources) (source offset : Nat) : Option String := do
  let file ← sources[source]?
  let (line, column) := file.lineColumn offset
  return s!"{file.name}:{line}:{column}"

end Sources

/-- The line of an `.INCLUDE` through which a file was reached. -/
structure IncludeSite where
  file : String
  line : Nat
  deriving DecidableEq, Repr, Inhabited

/-- Where a line or statement stands: its file, line number and span, and the chain of includes
that led to the file, outermost first. -/
structure Location where
  file : String
  line : Nat
  span : Span
  includedFrom : List IncludeSite
  deriving DecidableEq, Repr, Inhabited

namespace Location

/-- `file:line`. -/
def render (place : Location) : String := s!"{place.file}:{place.line}"

/-- The location of a part of the same line. -/
def narrow (place : Location) (span : Span) : Location := { place with span := span }

end Location

end Asm65816
