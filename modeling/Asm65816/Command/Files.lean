import Asm65816.Asset.Store

/-!
# Files of a command

What the command needs to know about the file system, and a file system of its own that is held
in memory: a tree below a working directory. What lies outside of the working directory counts as
directories without files.
-/

namespace Asm65816

/-- Why a path cannot be read or written. -/
inductive FileError where
  | missing
  /-- A part of the path that is no directory has further parts behind it. -/
  | notDirectory
  | isDirectory
  /-- The path, or one of its parts, has more bytes than a path or part can have. -/
  | nameTooLong
  /-- The path has a character that no name can have. -/
  | nulInName
  /-- The content is no UTF-8 text. -/
  | notText
  /-- Anything else, in the words of the system. -/
  | other (text : String)
  deriving DecidableEq, Repr, Inhabited

namespace FileError

/-- The wording of a file error. -/
def message : FileError → String
  | missing => "No such file or directory (os error 2)"
  | notDirectory => "Not a directory (os error 20)"
  | isDirectory => "Is a directory (os error 21)"
  | nameTooLong => "File name too long (os error 36)"
  | nulInName => "file name contained an unexpected NUL byte"
  | notText => "stream did not contain valid UTF-8"
  | other text => text

/-- The bytes that one part of a path can have. -/
def partLimit : Nat := 255

/-- The bytes that a path can have. -/
def pathLimit : Nat := 4095

/-- Why a path is refused, whatever files there are. -/
def ofPath? (path : String) : Option FileError :=
  if path.toList.contains '\x00' then some nulInName
  else if path.isEmpty then some missing
  else if pathLimit < path.utf8ByteSize then some nameTooLong
  else none

end FileError

/-- What can be asked about files. -/
structure FileView where
  /-- The contents that reading can yield. -/
  contents : List (List UInt8)
  read : String → Except FileError (List UInt8)
  covered : ∀ path bytes, read path = .ok bytes → bytes ∈ contents
  isDirectory : String → Bool

namespace FileView

/-- Reads a file as text. -/
def readText (files : FileView) (path : String) : Except FileError String := do
  match textOfBytes? (← files.read path) with
  | some text => return text
  | none => .error .notText

/-- Whether a path leads to a file. -/
def isFile (files : FileView) (path : String) : Bool := (files.read path).toOption.isSome

/-- What a file error means for a file that is to be included. -/
def readFault : FileError → ReadFault
  | .missing => .missing
  | _ => .refused

/-- The files that an assembly can include. -/
def assets (files : FileView) : AssetStore where
  contents := files.contents
  read path := (files.read path).mapError readFault
  covered path bytes h := by
    refine files.covered path bytes ?_
    cases found : files.read path with
    | error cause =>
      rw [found] at h
      cases h
    | ok content =>
      rw [found] at h
      exact congrArg Except.ok (Except.ok.inj h)

end FileView

/-- Files and directories below a working directory, under the parts of their paths. Every
directory on the way to one of them is listed, except the working directory itself. -/
structure FileTree where
  files : List (List String × List UInt8)
  directories : List (List String)
  deriving Repr, Inhabited

/-- Where a path leads. -/
inductive FileEntry where
  | file (content : List UInt8)
  /-- A directory of the tree, with its parts. -/
  | directory (parts : List String)
  /-- A directory that is not below the working directory. -/
  | outside
  deriving Repr, Inhabited

namespace FileTree

/-- The parts of a path of the tree. -/
def partsOf (path : String) : List String :=
  (Path.pieces path).filter fun piece => piece != "" && piece != "."

/-- The directories on the way to a path. -/
def ancestors (parts : List String) : List (List String) :=
  (List.range parts.length).tail.map parts.take

/-- The tree with the given files and directories and everything on the way to them. -/
def ofPaths (files : List (String × List UInt8)) (directories : List String) : FileTree :=
  let files := files.map fun (path, content) => (partsOf path, content)
  let directories := directories.map partsOf
  ⟨files,
    directories ++ (directories ++ files.map Prod.fst).flatMap ancestors⟩

/-- The entry with the given parts. -/
def entry? (tree : FileTree) (parts : List String) : Option FileEntry :=
  match tree.files.lookup parts with
  | some content => some (.file content)
  | none => if tree.directories.contains parts then some (.directory parts) else none

/-- Follows one piece of a path. -/
def follow (tree : FileTree) (entry : FileEntry) (piece : String) : Except FileError FileEntry :=
  match entry, piece with
  | .file _, _ => .error .notDirectory
  | entry, "" | entry, "." => .ok entry
  | .outside, ".." | .directory [], ".." => .ok .outside
  | .directory parts, ".." => .ok (.directory parts.dropLast)
  | .directory parts, name =>
    if FileError.partLimit < name.utf8ByteSize then .error .nameTooLong
    else
      match tree.entry? (parts ++ [name]) with
      | some entry => .ok entry
      | none => .error .missing
  | .outside, name =>
    .error (if FileError.partLimit < name.utf8ByteSize then .nameTooLong else .missing)

/-- Follows the pieces of a path. -/
def followAll (tree : FileTree) (path : String) (pieces : List String) :
    Except FileError FileEntry :=
  pieces.foldlM tree.follow (if Path.isAbsolute path then .outside else .directory [])

/-- Where a path leads. -/
def find (tree : FileTree) (path : String) : Except FileError FileEntry :=
  match FileError.ofPath? path with
  | some cause => .error cause
  | none => tree.followAll path (Path.pieces path)

/-- Reads a file. -/
def read (tree : FileTree) (path : String) : Except FileError (List UInt8) :=
  match tree.find path with
  | .ok (.file content) => .ok content
  | .ok (.directory _) | .ok .outside => .error .isDirectory
  | .error cause => .error cause

/-- Whether a path leads to a directory. -/
def isDirectory (tree : FileTree) (path : String) : Bool :=
  match tree.find path with
  | .ok (.directory _) | .ok .outside => true
  | _ => false

/-- An entry whose content, if it is a file, is a content of the tree. -/
def Holds (tree : FileTree) (entry : FileEntry) : Prop :=
  ∀ content, entry = .file content → content ∈ tree.files.map Prod.snd

theorem holds_entry {tree : FileTree} {parts : List String} {entry : FileEntry}
    (h : tree.entry? parts = some entry) : tree.Holds entry := by
  intro content hcontent
  subst hcontent
  unfold entry? at h
  split at h
  · rename_i found hfound
    cases h
    obtain ⟨before, after, happend, _⟩ := List.lookup_eq_some_iff.1 hfound
    simp [happend]
  · split at h <;> cases h

theorem holds_follow {tree : FileTree} {entry next : FileEntry} {piece : String}
    (held : tree.Holds entry) (h : tree.follow entry piece = .ok next) : tree.Holds next := by
  unfold follow at h
  split at h
  · cases h
  · cases h
    exact held
  · cases h
    exact held
  · cases h
    intro content hcontent
    cases hcontent
  · cases h
    intro content hcontent
    cases hcontent
  · cases h
    intro content hcontent
    cases hcontent
  · split at h
    · cases h
    · split at h
      · rename_i found hfound
        cases h
        exact holds_entry hfound
      · cases h
  · cases h

theorem holds_foldlM {tree : FileTree} {pieces : List String} {entry last : FileEntry}
    (held : tree.Holds entry) (h : pieces.foldlM tree.follow entry = .ok last) :
    tree.Holds last := by
  induction pieces generalizing entry with
  | nil =>
    cases h
    exact held
  | cons piece rest ih =>
    rw [List.foldlM_cons] at h
    cases step : tree.follow entry piece with
    | error cause =>
      rw [step] at h
      cases h
    | ok next =>
      rw [step] at h
      exact ih (holds_follow held step) h

theorem holds_find {tree : FileTree} {path : String} {entry : FileEntry}
    (h : tree.find path = .ok entry) : tree.Holds entry := by
  unfold find at h
  split at h
  · cases h
  · refine holds_foldlM ?_ h
    intro content hcontent
    split at hcontent <;> cases hcontent

/-- Reading yields the content of a file of the tree. -/
theorem read_mem {tree : FileTree} {path : String} {bytes : List UInt8}
    (h : tree.read path = .ok bytes) : bytes ∈ tree.files.map Prod.snd := by
  unfold read at h
  split at h
  · rename_i found
    cases h
    exact holds_find found _ rfl
  · cases h
  · cases h
  · cases h

/-- What can be asked about the tree. -/
def view (tree : FileTree) : FileView where
  contents := tree.files.map Prod.snd
  read := tree.read
  covered _ _ := read_mem
  isDirectory := tree.isDirectory

/-- The tree with a file in place of any file with the same parts. -/
def put (tree : FileTree) (parts : List String) (content : List UInt8) : FileTree :=
  { tree with files := (parts, content) :: tree.files.filter fun file => file.1 != parts }

/-- Writes a file whose directory exists. A path that ends in a slash or in dots cannot be a file,
and a file outside of the tree leaves no trace in it. -/
def write (tree : FileTree) (path : String) (content : List UInt8) : Except FileError FileTree := do
  match FileError.ofPath? path, (Path.pieces path).reverse.dropWhile String.isEmpty with
  | some cause, _ => .error cause
  | none, [] => .error .isDirectory
  | none, name :: above =>
    let slashed := path.toList.getLast? == some '/'
    match ← tree.followAll path above.reverse with
    | .file _ => .error .notDirectory
    | directory =>
      if slashed || name == "." || name == ".." then .error .isDirectory
      else if FileError.partLimit < name.utf8ByteSize then .error .nameTooLong
      else
        match directory with
        | .directory parts =>
          if tree.directories.contains (parts ++ [name]) then .error .isDirectory
          else return tree.put (parts ++ [name]) content
        | _ => return tree

/-- The files of a tree that are new or differ from those of an earlier tree. -/
def changesSince (tree earlier : FileTree) : List (String × List UInt8) :=
  (tree.files.filter fun (parts, content) => earlier.files.lookup parts != some content).map
    fun (parts, content) => (joinWith "/" parts, content)

end FileTree

end Asm65816
