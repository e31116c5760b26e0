import Asm65816.Command.Run

/-!
# Files that a command can reach

A command reads its configuration, its input, and files whose names are quoted in a source. From
the files that are known already it follows which ones may be read next, so that a command can be
planned after all of them have been looked at.
-/

namespace Asm65816

/-- What was found under each path that has been looked at. A directory is a path that cannot be
read because it is one. -/
abbrev Observations := List (String × Except FileError (List UInt8))

/-- The contents that have been seen. -/
def Observations.contents (seen : Observations) : List (List UInt8) :=
  seen.filterMap fun (_, result) => result.toOption

/-- What was found under a path. A path that has not been looked at counts as missing. -/
def Observations.read (seen : Observations) (path : String) : Except FileError (List UInt8) :=
  (seen.lookup path).getD (.error .missing)

theorem Observations.read_mem {seen : Observations} {path : String} {bytes : List UInt8}
    (h : seen.read path = .ok bytes) : bytes ∈ seen.contents := by
  unfold Observations.read at h
  cases found : seen.lookup path with
  | none => simp [found] at h
  | some result =>
    simp only [found, Option.getD_some] at h
    obtain ⟨before, after, happend, _⟩ := List.lookup_eq_some_iff.1 found
    simp [Observations.contents, happend, h, Except.toOption]

/-- The files that have been looked at. -/
def FileView.ofObservations (seen : Observations) : FileView where
  contents := seen.contents
  read := seen.read
  covered _ _ := Observations.read_mem
  isDirectory path :=
    match seen.lookup path with
    | some (.error .isDirectory) => true
    | _ => false

/-- The texts quoted in a line. -/
def quotedInLine (line : List Char) : List String :=
  match lexLine 0 0 line with
  | .ok tokens => tokens.filterMap fun token =>
    match token.kind with
    | .text content _ => some content
    | _ => none
  | .error _ => []

/-- The texts quoted in a source. -/
def quotedTexts (text : String) : List String :=
  (splitLines (stripBlockComments text.toList).1).flatMap quotedInLine

namespace Options

/-- The path of the configuration, whether or not there is one. -/
def configPath (options : Options) : String := options.config.getD options.adjacentConfig

/-- The paths that a command may look at, as far as the files seen so far can tell. -/
def wanted (options : Options) (files : FileView) : List String :=
  let directories := match options.loadConfig files with
    | .ok config => options.searchDirectories config
    | .error _ => options.searchDirectories .empty
  let quoted := (files.contents.filterMap textOfBytes?).flatMap quotedTexts
  options.includeDirectories ++ [options.configPath, options.input] ++
    quoted.flatMap (AssetStore.candidates directories)

end Options

end Asm65816
