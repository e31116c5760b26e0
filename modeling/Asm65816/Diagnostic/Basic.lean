import Asm65816.Source.Span

/-!
# Diagnostics

What the assembler reports: a message, the place it is about, and help and notes in the order
in which they were attached.
-/

namespace Asm65816

/-- Whether the assembly can go on. -/
inductive Severity where
  | error
  | warning
  deriving DecidableEq, Repr, Inhabited

namespace Severity

/-- The word in front of a diagnostic that is shown without its source. -/
def word : Severity → String
  | error => "error"
  | warning => "warning"

/-- The word at the head of a report. -/
def title : Severity → String
  | error => "Error"
  | warning => "Warning"

end Severity

/-- A text that accompanies a diagnostic. -/
inductive Supplement where
  | help (text : String)
  | note (text : String)
  deriving DecidableEq, Repr, Inhabited

/-- One report of the assembler. -/
structure Diagnostic where
  severity : Severity
  message : String
  span : Option Span
  supplements : List Supplement
  deriving DecidableEq, Repr, Inhabited

namespace Diagnostic

/-- An error about a piece of source text. -/
def errorAt (span : Span) (message : String) : Diagnostic := ⟨.error, message, some span, []⟩

/-- A warning about a piece of source text. -/
def warningAt (span : Span) (message : String) : Diagnostic := ⟨.warning, message, some span, []⟩

/-- An error that belongs to no source text. -/
def errorAnywhere (message : String) : Diagnostic := ⟨.error, message, none, []⟩

/-- The diagnostic with one more help text. -/
def withHelp (diagnostic : Diagnostic) (text : String) : Diagnostic :=
  { diagnostic with supplements := diagnostic.supplements ++ [.help text] }

/-- The diagnostic with one more note. -/
def withNote (diagnostic : Diagnostic) (text : String) : Diagnostic :=
  { diagnostic with supplements := diagnostic.supplements ++ [.note text] }

/-- Whether the diagnostic is an error. -/
def isError (diagnostic : Diagnostic) : Bool := diagnostic.severity == .error

/-- `error: message` or `warning: message`. -/
def render (diagnostic : Diagnostic) : String :=
  diagnostic.severity.word ++ ": " ++ diagnostic.message

/-- The help texts in order. -/
def helps (diagnostic : Diagnostic) : List String :=
  diagnostic.supplements.filterMap fun
    | .help text => some text
    | .note _ => none

/-- The notes in order. -/
def notes (diagnostic : Diagnostic) : List String :=
  diagnostic.supplements.filterMap fun
    | .note text => some text
    | .help _ => none

end Diagnostic

end Asm65816
