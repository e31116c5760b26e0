import Asm65816.Text.Letters

/-!
# Paths

Paths are texts with `/` between their parts. Two spellings name the same entry of a file table
when they have the same parts: repeated slashes, a slash at the end and a `.` in the middle do
not count, while a leading `.` and every `..` do.
-/

namespace Asm65816.Path

/-- Whether a path starts at the root. -/
def isAbsolute (path : String) : Bool := beginsWith '/' path

/-- `path` taken from `directory`. An absolute path stands for itself. -/
def join (directory path : String) : String :=
  if isAbsolute path || directory.isEmpty then path
  else if directory.toList.getLast? == some '/' then directory ++ path
  else directory ++ "/" ++ path

/-- The pieces between the slashes of a path. -/
def pieces (path : String) : List String := path.splitOn "/"

/-- Whether the piece at `index` is a part of a path. -/
def isPart (path : String) (piece : String) (index : Nat) : Bool :=
  !piece.isEmpty && (piece != "." || (index == 0 && !isAbsolute path))

/-- The parts of a path, each with its index among the pieces. -/
def indexedParts (path : String) : List (String × Nat) :=
  (pieces path).zipIdx.filter fun (piece, index) => isPart path piece index

/-- The parts of a path. -/
def parts (path : String) : List String := (indexedParts path).map Prod.fst

/-- Whether two spellings have the same parts and start at the same place. -/
def same (a b : String) : Bool := isAbsolute a == isAbsolute b && parts a == parts b

/-- The path without its last part, unless it has none. -/
def parent? (path : String) : Option String :=
  match (indexedParts path).reverse with
  | [] => none
  | [_] => some (if isAbsolute path then "/" else "")
  | _ :: (_, index) :: _ => some (joinWith "/" ((pieces path).take (index + 1)))

/-- The last part of a path and its index, if the part is a name. -/
def fileName? (path : String) : Option (String × Nat) :=
  match (indexedParts path).getLast? with
  | some (name, index) => if name == ".." || name == "." then none else some (name, index)
  | none => none

/-- A file name up to its last dot. A name without a dot, or with its only dot in front, is its
own stem. -/
def stem (name : String) : String :=
  let chars := name.toList
  let beforeDot := (chars.reverse.dropWhile (· != '.')).drop 1
  if chars.contains '.' ∧ beforeDot ≠ [] then String.ofList beforeDot.reverse else name

/-- The path with `extension` in place of the extension of its file name. -/
def withExtension (path extension : String) : String :=
  match fileName? path with
  | none => path
  | some (name, index) =>
    joinWith "/" ((pieces path).take index ++ [stem name ++ "." ++ extension])

end Asm65816.Path
