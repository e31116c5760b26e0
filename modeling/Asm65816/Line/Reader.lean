import Asm65816.Line.Basic
import Asm65816.Line.Comment
import Asm65816.Line.Operand
import Asm65816.Token.Lexer

/-!
# Reading source text

Block comments are blanked, the text is cut at its newlines, and every line is read on its own,
so that one bad line does not hide the faults of the next. Lines without tokens are dropped.
-/

namespace Asm65816

/-- The operands of a statement, whether `...` ends them, and what is left. There are at most
`limit` operands. -/
def readOperands :
    Nat → Expectation → List Token → Except SyntaxFault (List Expr × Bool × List Token)
  | 0, expected, tokens => .error (.facing expected tokens)
  | limit + 1, expected, tokens => do
    let (first, rest) ← readOperand expected tokens
    match rest with
    | ⟨.punct .comma, _, _⟩ :: ⟨.punct .ellipsis, _, _⟩ :: others => return ([first], true, others)
    | ⟨.punct .comma, _, _⟩ :: others =>
      let (operands, ellipsis, left) ← readOperands limit .nextOperand others
      return (first :: operands, ellipsis, left)
    | _ => return ([first], false, rest)

/-- The end of the last token that was consumed when `rest` is what is left of `tokens`. -/
def consumedEnd (tokens rest : List Token) (fallback : Nat) : Nat :=
  ((tokens.take (tokens.length - rest.length)).getLast?).elim fallback fun token => token.span.stop

/-- A statement, given its name and the tokens behind it, and what is left: nothing, or a colon
and what follows it. -/
def readStatement (afterName : Expectation) (name : Spanned String) (tokens : List Token) :
    Except SyntaxFault (Statement × List Token) := do
  let finish (operands : List Expr) (ellipsis : Bool) (rest : List Token) : Statement :=
    ⟨name, operands, ellipsis,
      { name.span with stop := consumedEnd tokens rest name.span.stop }⟩
  match tokens with
  | [] => return (finish [] false [], [])
  | ⟨.punct .colon, _, _⟩ :: _ => return (finish [] false tokens, tokens)
  | ⟨.punct .ellipsis, _, _⟩ :: rest =>
    match rest with
    | [] | ⟨.punct .colon, _, _⟩ :: _ => return (finish [] true rest, rest)
    | _ => .error (.facing .afterEllipsis rest)
  | _ =>
    let (operands, ellipsis, rest) ← readOperands tokens.length afterName tokens
    match rest with
    | [] | ⟨.punct .colon, _, _⟩ :: _ => return (finish operands ellipsis rest, rest)
    | _ => .error (.facing (if ellipsis then .afterEllipsis else .afterOperand) rest)

/-- Statements divided by colons, and the span of a colon that nothing follows. There are at most
`limit` statements. -/
def readStatements : Nat → Expectation → Spanned String → List Token →
    Except SyntaxFault (List Statement × Option Span)
  | 0, afterName, _, tokens => .error (.facing afterName tokens)
  | limit + 1, afterName, name, tokens => do
    let (statement, rest) ← readStatement afterName name tokens
    match rest with
    | [] => return ([statement], none)
    | [colon] => return ([statement], some colon.span)
    | _ :: ⟨.name ident, span, _⟩ :: others =>
      let (statements, trailing) ← readStatements limit .laterName ⟨ident, span⟩ others
      return (statement :: statements, trailing)
    | _ :: others => .error (.facing .afterColon others)

/-- The report on a fault in a line whose last token ends at byte `stop`. -/
def SyntaxFault.report (fault : SyntaxFault) (source stop : Nat) : Diagnostic :=
  Diagnostic.errorAt (fault.found.elim ⟨source, stop, stop⟩ Token.span) fault.message

/-- Applies the rules of the first column: a first name that starts the line is a label, and a
colon at the end of the line may only stand behind such a label. -/
def placeLabel (offset : Nat) (statements : List Statement) (trailing : Option Span) :
    Except Diagnostic LineBody :=
  let (label, others) := match statements with
    | first :: rest =>
      if first.name.span.start = offset then (some first.name, rest) else (none, statements)
    | [] => (none, [])
  match trailing with
  | some colon =>
    if others.isEmpty then .ok (.statements label others)
    else .error (Diagnostic.errorAt colon "invalid syntax: trailing statement separator")
  | none => .ok (.statements label others)

/-- Reads the tokens of a line that starts at byte `offset` and whose last token ends at `stop`. -/
def readBody (source offset stop : Nat) (tokens : List Token) : Except Diagnostic LineBody :=
  let failed (fault : SyntaxFault) : Except Diagnostic LineBody :=
    .error (fault.report source stop)
  match tokens with
  | ⟨.name ident, span, _⟩ :: ⟨.punct .assign, _, _⟩ :: rest =>
    match readOperand .operand rest with
    | .error fault => failed fault
    | .ok (value, []) => .ok (.equate ⟨ident, span⟩ value)
    | .ok (_, left) => failed (.facing .afterEquate left)
  | ⟨.name ident, span, _⟩ :: rest =>
    match readStatements tokens.length .firstName ⟨ident, span⟩ rest with
    | .error fault => failed fault
    | .ok (statements, trailing) => placeLabel offset statements trailing
  | _ => failed (.facing .lineStart tokens)

/-- Whether a line starts with a name in the first column and something other than a colon or an
equals sign behind it; the name. -/
def crowdedLabel? (offset : Nat) (tokens : List Token) : Option String :=
  match tokens with
  | ⟨.name ident, span, _⟩ :: second :: _ =>
    if span.start = offset ∧ second.kind ≠ .punct .colon ∧ second.kind ≠ .punct .assign then
      some ident
    else none
  | _ => none

/-- Reads one line. A line without tokens yields nothing. -/
def readLine (location : Location) (text : List Char) : Except (List Diagnostic) (Option Line) := do
  let source := location.span.source
  let offset := location.span.start
  let tokens ← lexLine source offset text
  match tokens.getLast? with
  | none => return none
  | some last =>
    match crowdedLabel? offset tokens with
    | some ident =>
      .error [(Diagnostic.errorAt ⟨source, offset, last.span.stop⟩
        s!"invalid syntax: unexpected words after '{ident}'").withHelp
          "a name in the first column declares a label"]
    | none =>
      match readBody source offset last.span.stop tokens with
      | .ok body => return some ⟨body, location⟩
      | .error report => .error [report]

/-- Cuts a text at its newlines. -/
def splitLines : List Char → List (List Char)
  | [] => [[]]
  | c :: rest =>
    if c = '\n' then [] :: splitLines rest
    else match splitLines rest with
      | first :: others => (c :: first) :: others
      | [] => [[c]]

/-- Reads lines that are numbered from `number` and start at byte `offset`. -/
def readLines (source : Nat) (file : String) (includedFrom : List IncludeSite) :
    Nat → Nat → List (List Char) → List (Except (List Diagnostic) (Option Line))
  | _, _, [] => []
  | number, offset, text :: rest =>
    let location : Location :=
      ⟨file, number, ⟨source, offset, offset + byteLength (trimEnd text)⟩, includedFrom⟩
    readLine location text ::
      readLines source file includedFrom (number + 1) (offset + byteLength text + 1) rest

/-- The lines of a source and the warnings about it. -/
structure SourceLines where
  lines : List Line
  warnings : List Diagnostic
  deriving Inhabited, Repr

/-- The warning about a block comment that nothing closes. -/
def unterminatedComment (source opener : Nat) : Diagnostic :=
  (Diagnostic.warningAt ⟨source, opener, opener + 2⟩ "unterminated block comment").withHelp
    "the rest of the file is ignored; close it with '*/'"

/-- Reads a source text, or reports the faults of all its lines. -/
def readSource (source : Nat) (file text : String) (includedFrom : List IncludeSite) :
    Except (List Diagnostic) SourceLines :=
  let (stripped, unclosed) := stripBlockComments text.toList
  let results := readLines source file includedFrom 1 0 (splitLines stripped)
  match (failures results).flatten with
  | [] =>
    .ok ⟨(results.filterMap Except.toOption).filterMap id,
      unclosed.toList.map (unterminatedComment source)⟩
  | reports => .error reports

end Asm65816
