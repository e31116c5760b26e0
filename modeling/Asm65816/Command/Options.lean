import Asm65816.Command.Byte
import Asm65816.Output.Format

/-!
# Command line options

Options come in a short and a long form; the value of an option stands behind it, attached to it,
or behind an equals sign. A value is checked when the next argument shows that it is complete, so
an unknown argument is reported before the fault of a value in front of it.
-/

namespace Asm65816

/-- What is asked for on the command line. -/
structure Options where
  input : String
  output : Option String
  format : Option OutputFormat
  listing : Bool
  unused : Option UInt8
  includeDirectories : List String
  strip : Bool
  config : Option String
  /-- How often more messages were asked for. -/
  verbosity : Nat
  deriving DecidableEq, Repr, Inhabited

/-- Why the arguments do not start an assembly. -/
inductive UsageStop where
  | unknownArgument
  | invalidValue
  /-- A value that is no byte. -/
  | valueValidation
  | missingRequiredArgument
  | argumentConflict
  | tooManyValues
  | displayHelp
  | displayVersion
  deriving DecidableEq, Repr, Inhabited

namespace UsageStop

/-- Whether the arguments were understood. -/
def isRequest : UsageStop → Bool
  | displayHelp | displayVersion => true
  | _ => false

end UsageStop

/-- An argument that takes a value. -/
inductive ValueOption where
  | input
  | output
  | format
  | unused
  | includeDirectory
  | config
  deriving DecidableEq, Repr, Inhabited

/-- An option without a value. -/
inductive Switch where
  | listing
  | strip
  | verbose
  | help
  | version
  deriving DecidableEq, Repr, Inhabited

/-- What a short or long form stands for. -/
inductive OptionForm where
  | value (option : ValueOption)
  | switch (switch : Switch)
  deriving DecidableEq, Repr, Inhabited

namespace OptionForm

/-- The meaning of a letter behind a hyphen. -/
def ofShort? : Char → Option OptionForm
  | 'o' => some (.value .output)
  | 'f' => some (.value .format)
  | 'u' => some (.value .unused)
  | 'I' => some (.value .includeDirectory)
  | 'c' => some (.value .config)
  | 'l' => some (.switch .listing)
  | 'v' => some (.switch .verbose)
  | 'h' => some (.switch .help)
  | 'V' => some (.switch .version)
  | _ => none

/-- The meaning of a word behind two hyphens. -/
def ofLong? : String → Option OptionForm
  | "output" => some (.value .output)
  | "format" => some (.value .format)
  | "unused" => some (.value .unused)
  | "include" => some (.value .includeDirectory)
  | "config" => some (.value .config)
  | "listing" => some (.switch .listing)
  | "ihex-strip" => some (.switch .strip)
  | "verbose" => some (.switch .verbose)
  | "help" => some (.switch .help)
  | "version" => some (.switch .version)
  | _ => none

end OptionForm

/-- What is known after the arguments read so far. -/
structure OptionState where
  input : Option String
  output : Option String
  format : Option OutputFormat
  listing : Bool
  unused : Option UInt8
  includeDirectories : List String
  strip : Bool
  config : Option String
  verbosity : Nat
  /-- The last argument that takes a value, with the value if there is one. -/
  pending : Option (ValueOption × Option String)
  /-- Whether all further arguments are positional. -/
  trailing : Bool

namespace OptionState

/-- Nothing read. -/
def initial : OptionState := ⟨none, none, none, false, none, [], false, none, 0, none, false⟩

/-- A value for an option that may be given once. -/
def once {α : Type} (current : Option α) (value : Except UsageStop α) :
    Except UsageStop (Option α) :=
  match current with
  | some _ => .error .argumentConflict
  | none => value.map some

/-- A path, which must not be empty. -/
def readPath (value : String) : Except UsageStop String :=
  if value.isEmpty then .error .invalidValue else .ok value

/-- The name of a format. -/
def readFormat : String → Except UsageStop OutputFormat
  | "mem" => .ok .memory
  | "ihex" => .ok .intelHex
  | _ => .error .invalidValue

/-- Takes over the value of an argument. -/
def accept (state : OptionState) (option : ValueOption) (value : String) :
    Except UsageStop OptionState := do
  match option with
  | .input => return { state with input := ← once state.input (readPath value) }
  | .output => return { state with output := ← once state.output (readPath value) }
  | .format => return { state with format := ← once state.format (readFormat value) }
  | .unused =>
    let byte := (readByte value).mapError fun _ => UsageStop.valueValidation
    return { state with unused := ← once state.unused byte }
  | .includeDirectory =>
    return { state with includeDirectories := state.includeDirectories ++ [← readPath value] }
  | .config => return { state with config := ← once state.config (readPath value) }

/-- Takes over the pending value, which must not be missing. -/
def settle (state : OptionState) : Except UsageStop OptionState :=
  match state.pending with
  | none => .ok state
  | some (_, none) => .error .invalidValue
  | some (option, some value) => { state with pending := none }.accept option value

/-- An option that takes a value, and the value attached to it. -/
def valueOption (state : OptionState) (option : ValueOption) (attached : Option String) :
    Except UsageStop OptionState := do
  let state ← state.settle
  match attached with
  | some value => state.accept option value
  | none => return { state with pending := some (option, none) }

/-- An option without a value. -/
def switch (state : OptionState) (option : Switch) : Except UsageStop OptionState := do
  let state ← state.settle
  match option with
  | .listing =>
    if state.listing then .error .argumentConflict else return { state with listing := true }
  | .strip =>
    if state.strip then .error .argumentConflict else return { state with strip := true }
  | .verbose => return { state with verbosity := state.verbosity + 1 }
  | .help => .error .displayHelp
  | .version => .error .displayVersion

/-- The value that stands behind a letter, with or without an equals sign. -/
def attachedValue : List Char → Option String
  | [] => none
  | '=' :: rest => some (String.ofList rest)
  | rest => some (String.ofList rest)

/-- The letters behind one hyphen. -/
def shortForms (state : OptionState) : List Char → Except UsageStop OptionState
  | [] => .ok state
  | c :: rest => do
    match OptionForm.ofShort? c with
    | some (.value option) => state.valueOption option (attachedValue rest)
    | some (.switch option) => (← state.switch option).shortForms rest
    | none => .error .unknownArgument

/-- The text behind two hyphens. -/
def longForm (state : OptionState) (text : List Char) : Except UsageStop OptionState :=
  let name := String.ofList (text.takeWhile (· != '='))
  let attached := match text.dropWhile (· != '=') with
    | [] => none
    | _ :: value => some (String.ofList value)
  match OptionForm.ofLong? name with
  | some (.value option) => state.valueOption option attached
  | some (.switch option) =>
    match attached with
    | some _ => .error .tooManyValues
    | none => state.switch option
  | none => .error .unknownArgument

/-- An argument that is no option: the value that an option waits for, or the input. -/
def plain (state : OptionState) (argument : String) : Except UsageStop OptionState := do
  match state.trailing, state.pending with
  | false, some (option, none) => return { state with pending := some (option, some argument) }
  | _, pending =>
    if state.input.isSome || pending.elim false (fun (option, _) => option == .input) then
      .error .unknownArgument
    else
      let state ← state.settle
      return { state with pending := some (.input, some argument) }

/-- Reads one argument. -/
def argument (state : OptionState) (text : String) : Except UsageStop OptionState :=
  if state.trailing then state.plain text
  else match text.toList with
    | ['-', '-'] => .ok { state with trailing := true }
    | '-' :: '-' :: rest => state.longForm rest
    | ['-'] => state.plain text
    | '-' :: rest => state.shortForms rest
    | _ => state.plain text

/-- The options, once all arguments are read. -/
def finish (state : OptionState) : Except UsageStop Options := do
  let state ← state.settle
  match state.input with
  | none => .error .missingRequiredArgument
  | some input =>
    return ⟨input, state.output, state.format, state.listing, state.unused,
      state.includeDirectories, state.strip, state.config, state.verbosity⟩

end OptionState

/-- Reads the arguments of the program. -/
def Options.read (arguments : List String) : Except UsageStop Options := do
  (← arguments.foldlM OptionState.argument OptionState.initial).finish

end Asm65816
