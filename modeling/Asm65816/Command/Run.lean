import Asm65816.Command.Config
import Asm65816.Command.Files
import Asm65816.Command.Options

/-!
# The command

From options to output files: the configuration fills in what the options leave open, the input
is assembled, and the output and the listing are named after the input or the given output path.
-/

namespace Asm65816

/-- Why a configuration cannot be used. -/
inductive ConfigError where
  | unreadable (path : String) (cause : FileError)
  | malformed (path : String)
  deriving DecidableEq, Repr

namespace ConfigError

/-- The wording of a configuration error, without its cause. -/
def message : ConfigError → String
  | unreadable path _ => s!"failed to read project config '{path}'"
  | malformed path => s!"failed to parse project config '{path}'"

end ConfigError

/-- Reads a configuration file. Its relative directories are taken from its own directory. -/
def ProjectConfig.load (files : FileView) (path : String) : Except ConfigError ProjectConfig := do
  let text ← (files.readText path).mapError (ConfigError.unreadable path)
  match ProjectConfig.read? text with
  | none => .error (.malformed path)
  | some config =>
    match Path.parent? path with
    | some base => return if base.isEmpty then config else config.rebase base
    | none => return config

/-- Why a command fails. -/
inductive CommandFailure where
  /-- A directory on the command line that is none. -/
  | includeDirectory (path : String)
  | config (cause : ConfigError)
  /-- The reports on the assembly, as they are printed. -/
  | assembly (reports : String)
  /-- A trap in the assembly, which ends the command without any reports. -/
  | trapped
  | unwritable (path : String) (cause : FileError)
  deriving DecidableEq, Repr

namespace CommandFailure

/-- The wording of a failure. -/
def message : CommandFailure → String
  | includeDirectory path => s!"specified include path '{path}' isn't valid"
  | config (.unreadable path cause) =>
    (ConfigError.unreadable path cause).message ++ ": " ++ cause.message
  | config (.malformed path) => (ConfigError.malformed path).message
  | assembly reports => reports
  | trapped => EvalError.trap.message
  | unwritable path cause => s!"failed to write '{path}': " ++ cause.message

/-- The exit status of a command that fails. -/
def status : CommandFailure → UInt32
  | trapped => 101
  | _ => 1

/-- Why a command fails whose assembly does. -/
def ofAssembly (error : AssemblyError) : CommandFailure :=
  if error.isTrap then trapped else assembly error.render

end CommandFailure

/-- The name of a configuration that is used when it lies next to the input. -/
def adjacentConfigName : String := "c816.ron"

namespace Options

/-- The path of a configuration next to the input. -/
def adjacentConfig (options : Options) : String :=
  Path.join ((Path.parent? options.input).getD ".") adjacentConfigName

/-- The configuration: the given one, which has to be usable, or the one next to the input, if
there is one. -/
def loadConfig (options : Options) (files : FileView) : Except ConfigError ProjectConfig :=
  match options.config with
  | some path => ProjectConfig.load files path
  | none =>
    if files.isFile options.adjacentConfig then ProjectConfig.load files options.adjacentConfig
    else .ok .empty

/-- How the output is written. -/
def outputOptions (options : Options) (config : ProjectConfig) : OutputOptions where
  format := (options.format.or config.format).getD .memory
  unused := (options.unused.or config.unused).getD 0
  strip := options.strip || config.strip.getD false

/-- Where included files are looked for: next to the input, in the directories of the command
line, and in those of the configuration. -/
def searchDirectories (options : Options) (config : ProjectConfig) : List String :=
  let own := (Path.parent? options.input).toList.filter fun parent => !parent.isEmpty
  own ++ options.includeDirectories ++ config.includeDirectories

/-- Assembles the input. -/
def assemble (options : Options) (files : FileView) (config : ProjectConfig) :
    Except CommandFailure Assembly := do
  let text ← (files.readText options.input).mapError fun cause =>
    let report := Diagnostic.errorAnywhere s!"cannot read '{options.input}': {cause.message}"
    CommandFailure.assembly (Diagnostic.reportAll [] [report])
  let search : AssetSearch := ⟨files.assets, options.searchDirectories config⟩
  let listing := options.listing || config.listing.getD false
  (Asm65816.assemble search ⟨options.input, text⟩ listing).mapError CommandFailure.ofAssembly

end Options

/-- A file to be written. -/
structure OutputFile where
  path : String
  content : List UInt8
  deriving DecidableEq, Repr, Inhabited

/-- What a command has to show and to write, in this order. -/
structure CommandPlan where
  warnings : String
  files : List OutputFile
  deriving DecidableEq, Repr, Inhabited

namespace Options

/-- The files to be written for an assembly. -/
def outputFiles (options : Options) (format : OutputOptions) (assembly : Assembly) :
    List OutputFile :=
  let path := options.output.getD (Path.withExtension options.input format.format.extension)
  let listing := assembly.listing.toList.map fun text =>
    OutputFile.mk (Path.withExtension path "lst") (utf8Bytes text)
  ⟨path, renderOutput assembly.segments format⟩ :: listing

/-- What a command does, given the files it can see. -/
def plan (options : Options) (files : FileView) : Except CommandFailure CommandPlan := do
  match options.includeDirectories.find? fun path => !files.isDirectory path with
  | some path => .error (.includeDirectory path)
  | none =>
    let config ← (options.loadConfig files).mapError CommandFailure.config
    let assembly ← options.assemble files config
    return ⟨assembly.renderWarnings, options.outputFiles (options.outputOptions config) assembly⟩

end Options

namespace FileTree

/-- Writes files in turn, up to the first one that cannot be written. -/
def writeAll (tree : FileTree) : List OutputFile → FileTree × Option CommandFailure
  | [] => (tree, none)
  | file :: rest =>
    match tree.write file.path file.content with
    | .ok written => written.writeAll rest
    | .error cause => (tree, some (.unwritable file.path cause))

/-- Runs the command in a tree: the tree afterwards, and why the command failed if it did. -/
def run (tree : FileTree) (options : Options) : FileTree × Option CommandFailure :=
  match options.plan tree.view with
  | .error failure => (tree, some failure)
  | .ok plan => tree.writeAll plan.files

end FileTree

end Asm65816
