import Asm65816.Asset.Path

/-!
# Finding files

Included sources and binaries are looked for under the path as given, and then in each search
directory in turn. An absolute path is only tried as given.
-/

namespace Asm65816

/-- Why a single path cannot be read. -/
inductive ReadFault where
  /-- Nothing has this path. -/
  | missing
  /-- Something has this path, but it cannot be read as a file. -/
  | refused
  deriving DecidableEq, Repr, Inhabited

/-- Files that an assembly may read. There are finitely many contents, so includes cannot lead to
new paths forever. -/
structure AssetStore where
  /-- The contents that reading can yield. -/
  contents : List (List UInt8)
  read : String → Except ReadFault (List UInt8)
  covered : ∀ path bytes, read path = .ok bytes → bytes ∈ contents

/-- Why a file cannot be used. -/
inductive AssetError where
  | notFound (path : String)
  | notFoundInSearchPath (path : String) (searched : List String)
  | unreadable (path : String)
  | notText (path : String)
  deriving DecidableEq, Repr

namespace AssetError

/-- The wording of a failed look-up. -/
def message : AssetError → String
  | notFound path => s!"file '{path}' not found"
  | notFoundInSearchPath path searched =>
    s!"'{path}' was not found in any of: " ++ joinWith ", " searched
  | unreadable path => s!"failed to read '{path}'"
  | notText path => s!"'{path}' is not valid UTF-8 text"

/-- Whether the file is missing, as opposed to present and unusable. -/
def isMissing : AssetError → Bool
  | notFound _ | notFoundInSearchPath _ _ => true
  | unreadable _ | notText _ => false

end AssetError

/-- A text, provided that the bytes are valid UTF-8. -/
def textOfBytes? (bytes : List UInt8) : Option String :=
  String.fromUTF8? ⟨bytes.toArray⟩

/-- A file that was found, under the path that led to it. -/
structure Asset where
  path : String
  bytes : List UInt8
  deriving Repr, Inhabited

namespace Asset

/-- The content as text. -/
def text (asset : Asset) : Except AssetError String :=
  match textOfBytes? asset.bytes with
  | some text => .ok text
  | none => .error (.notText asset.path)

end Asset

namespace AssetStore

/-- The content of a path in a table. Of two entries with the same path the later one counts. -/
def tableContent (files : List (String × List UInt8)) (path : String) :
    Except ReadFault (List UInt8) :=
  match files.reverse.find? fun file => Path.same file.1 path with
  | some file => .ok file.2
  | none => .error .missing

theorem tableContent_mem {files : List (String × List UInt8)} {path : String}
    {bytes : List UInt8} (h : tableContent files path = .ok bytes) :
    bytes ∈ files.map Prod.snd := by
  unfold tableContent at h
  split at h
  · rename_i file found
    cases h
    exact List.mem_map_of_mem (List.mem_reverse.1 (List.mem_of_find?_eq_some found))
  · cases h

/-- A table from paths to contents. -/
def ofTable (files : List (String × List UInt8)) : AssetStore where
  contents := files.map Prod.snd
  read := tableContent files
  covered _ _ h := tableContent_mem h

/-- The first candidate that is not missing, if it can be read. -/
def firstReadable (store : AssetStore) : List String → Except AssetError (Option Asset)
  | [] => .ok none
  | path :: rest =>
    match store.read path with
    | .ok bytes => .ok (some ⟨path, bytes⟩)
    | .error .missing => store.firstReadable rest
    | .error .refused => .error (.unreadable path)

/-- The paths that are tried for `path`, in order. -/
def candidates (directories : List String) (path : String) : List String :=
  if Path.isAbsolute path then [path]
  else path :: directories.map fun directory => Path.join directory path

/-- Finds and reads a file. -/
def locate (store : AssetStore) (directories : List String) (path : String) :
    Except AssetError Asset := do
  match ← store.firstReadable (candidates directories path) with
  | some asset => return asset
  | none =>
    if (candidates directories path).length = 1 then .error (.notFound path)
    else .error (.notFoundInSearchPath path directories)

end AssetStore

end Asm65816
