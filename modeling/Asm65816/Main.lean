import Asm65816.Command.Reach

/-!
# The program

Looks at the files that a command can reach, plans the command, and writes the planned files.
-/

namespace Asm65816

/-- The text that is shown on request. -/
def helpText : String :=
  "Cross assembler for the WDC 65C816\n\n" ++
  "Usage: c816 [OPTIONS] <INPUT>\n\n" ++
  "Arguments:\n" ++
  "  <INPUT>  Input source file\n\n" ++
  "Options:\n" ++
  "  -o, --output <OUTPUT>  Output file; defaults to the input with a .bin or .hex extension\n" ++
  "  -f, --format <FORMAT>  Output file format [possible values: mem, ihex]\n" ++
  "  -l, --listing          Write a listing next to the output file\n" ++
  "  -u, --unused <BYTE>    Value filling unused areas of the image (0 to 255, 0x, 0o and 0b " ++
  "prefixes allowed)\n" ++
  "  -I, --include <DIR>    Add a directory to the include search path\n" ++
  "      --ihex-strip       Leave out Intel HEX records that only hold the unused value\n" ++
  "  -c, --config <CONFIG>  Project config file in RON format\n" ++
  "  -v, --verbose...       Increase log verbosity\n" ++
  "  -h, --help             Print help\n" ++
  "  -V, --version          Print version\n"

/-- The text that names the version. -/
def versionText : String := "c816 0.1.0\n"

/-- The wording of arguments that cannot be used. -/
def UsageStop.message : UsageStop → String
  | .unknownArgument => "error: unexpected argument found\n"
  | .invalidValue => "error: an option needs another value\n"
  | .valueValidation => "error: the unused value is no byte\n"
  | .missingRequiredArgument =>
    "error: the following required arguments were not provided:\n  <INPUT>\n"
  | .argumentConflict => "error: an option cannot be used multiple times\n"
  | .tooManyValues => "error: an option takes no value\n"
  | .displayHelp => helpText
  | .displayVersion => versionText

/-- Whether a path leads to a directory. -/
def leadsToDirectory (path : String) : IO Bool := do
  let here ← IO.currentDir
  (here / path).isDir

/-- What an error of the system means for a path. -/
def fileError (path : String) (error : IO.Error) : IO FileError := do
  match error with
  | .noFileOrDirectory _ _ _ => return .missing
  | _ =>
    if ← leadsToDirectory path then return .isDirectory
    match error with
    | .inappropriateType _ 21 _ => return .isDirectory
    | .inappropriateType _ _ _ => return .notDirectory
    | _ =>
      if (Path.pieces path).any fun part => FileError.partLimit < part.utf8ByteSize then
        return .nameTooLong
      else return .other (toString error)

/-- Looks at a path. -/
def observe (path : String) : IO (Except FileError (List UInt8)) := do
  if let some cause := FileError.ofPath? path then return .error cause
  if ← leadsToDirectory path then return .error .isDirectory
  try
    let content ← IO.FS.readBinFile path
    return .ok content.toList
  catch error => return .error (← fileError path error)

/-- Looks at every path that a command can reach. -/
partial def observeAll (options : Options) (seen : Observations) : IO Observations := do
  let wanted := (options.wanted (.ofObservations seen)).eraseDups.filter fun path =>
    (seen.lookup path).isNone
  if wanted.isEmpty then return seen
  let found ← wanted.mapM fun path => do return (path, ← observe path)
  observeAll options (found ++ seen)

/-- Writes the planned files. -/
def writePlanned : List OutputFile → IO UInt32
  | [] => return 0
  | file :: rest => do
    try
      IO.FS.writeBinFile file.path ⟨file.content.toArray⟩
    catch error =>
      IO.eprintln (CommandFailure.unwritable file.path (← fileError file.path error)).message
      return 1
    writePlanned rest

/-- Runs a command with its options. -/
def runCommand (options : Options) : IO UInt32 := do
  let seen ← observeAll options []
  match options.plan (.ofObservations seen) with
  | .error failure =>
    IO.eprintln failure.message
    return failure.status
  | .ok plan =>
    IO.eprint plan.warnings
    writePlanned plan.files

end Asm65816

/-- Reads the arguments and runs the command. -/
def main (arguments : List String) : IO UInt32 := do
  match Asm65816.Options.read arguments with
  | .error stop =>
    if stop.isRequest then
      IO.print stop.message
      return 0
    else
      IO.eprint stop.message
      return 2
  | .ok options => Asm65816.runCommand options
