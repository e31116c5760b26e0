import Asm65816.Diagnostic.Basic
import Asm65816.Text.Blank
import Asm65816.Text.Letters

/-!
# Reports

A diagnostic as it is printed: with the line of source it is about, framed and numbered, or as
plain lines when it has no place in a registered source. Help comes before notes, and several
texts of one kind are numbered.
-/

namespace Asm65816

/-- The characters that end a line of a report. Source lines end at a newline only, so a report
may count more lines than the source has. -/
def endsReportLine (c : Char) : Bool :=
  c == '\r' || c == '\n' || c == '\x0b' || c == '\x0c' || c == Char.ofNat 0x85 ||
    c == Char.ofNat 0x2028 || c == Char.ofNat 0x2029

/-- Cuts a text after every line end; a carriage return and a newline are one end. `current` holds
the characters of the line being read, last one first. -/
def cutReportLines (current : List Char) : List Char → List (List Char)
  | [] => if current.isEmpty then [] else [current.reverse]
  | '\r' :: '\n' :: rest => ('\n' :: '\r' :: current).reverse :: cutReportLines [] rest
  | c :: rest =>
    if endsReportLine c then (c :: current).reverse :: cutReportLines [] rest
    else cutReportLines (c :: current) rest

/-- A line of a report: its number from one, the byte it starts at and its characters. -/
structure ReportLine where
  number : Nat
  start : Nat
  chars : List Char
  deriving Inhabited, Repr

/-- Numbers lines and gives each the byte offset it starts at. -/
def placeReportLines (number start : Nat) : List (List Char) → List ReportLine
  | [] => []
  | chars :: rest =>
    ⟨number, start, chars⟩ :: placeReportLines (number + 1) (start + byteLength chars) rest

/-- The report lines of a text. An empty text has one empty line. -/
def reportLines (text : List Char) : List ReportLine :=
  if text.isEmpty then [⟨1, 0, []⟩] else placeReportLines 1 0 (cutReportLines [] text)

/-- The line that holds a byte offset; the offset after the last byte belongs to the last line. -/
def reportLineAt? (text : List Char) (offset : Nat) : Option ReportLine :=
  if offset ≤ byteLength text then
    ((reportLines text).filter fun line => line.start ≤ offset).getLast?
  else none

/-- The number of characters that start within the first `size` bytes. -/
def charsWithin (size : Nat) : List Char → Nat
  | [] => 0
  | c :: rest => if size = 0 then 0 else 1 + charsWithin (size - c.utf8Size) rest

/-- A line as it is shown: without trailing blanks, tabs filled up to the next multiple of four
columns and every other blank as a space. -/
def shownChars (column : Nat) : List Char → List Char
  | [] => []
  | c :: rest =>
    (if c = '\t' then List.replicate (4 - column % 4) ' '
      else if isBlank c then [' '] else [c]) ++ shownChars (column + 1) rest

/-- The lines of a supplement, without line ends. -/
def supplementLines (text : String) : List String :=
  let pieces := text.splitOn "\n"
  let ended := pieces.dropLast.map fun piece =>
    if piece.toList.getLast? == some '\r' then String.ofList piece.toList.dropLast else piece
  ended ++ (pieces.getLast?.filter fun piece => !piece.isEmpty).toList

/-- One supplement under a report: a blank frame line, the text behind its heading, and further
lines of it aligned with the first. -/
def supplementRows (margin heading text : String) : List String :=
  let rows := match supplementLines text with
    | [] => []
    | first :: rest =>
      (margin ++ heading ++ ": " ++ first) ::
        rest.map fun line => margin ++ blanks (heading.length + 2) ++ line
  margin :: rows

/-- All supplements of one kind. They are numbered when there are several. -/
def supplementBlock (margin word : String) (texts : List String) : List String :=
  match texts with
  | [text] => supplementRows margin word text
  | _ => (texts.zipIdx 1).flatMap fun (text, index) =>
    supplementRows margin s!"{word} {index}" text

namespace Diagnostic

/-- The plain form: one line for the message and one for each supplement. -/
def renderPlain (diagnostic : Diagnostic) : String :=
  let supplements := diagnostic.supplements.map fun
    | .help text => "\nHelp: " ++ text
    | .note text => "\nNote: " ++ text
  diagnostic.render ++ String.join supplements ++ "\n"

/-- The framed form for a span of `file`. A span over several lines shows no source text, and a
span outside the text leaves only the heading. -/
def renderFramed (diagnostic : Diagnostic) (file : SourceFile) (span : Span) : String :=
  let text := file.text.toList
  let heading := diagnostic.severity.title ++ ": " ++ diagnostic.message
  let last := if span.stop ≤ span.start then span.start else span.stop - 1
  match reportLineAt? text span.start, reportLineAt? text last with
  | some first, some final =>
    let numberWidth := (toString final.number).length
    let column := charsWithin (span.start - first.start) first.chars + 1
    let margin := blanks (numberWidth + 2) ++ "│ "
    let shown :=
      if first.number = final.number then
        let chars := String.ofList (shownChars 0 (trimEnd first.chars))
        s!" {first.number} │ {chars}"
      else if span.start = first.start then blanks (numberWidth + 2) ++ "┆ "
      else margin
    let rows :=
      [heading,
        blanks (numberWidth + 2) ++ s!"╭─[ {file.name}:{first.number}:{column} ]",
        blanks (numberWidth + 2) ++ "│",
        shown] ++
        supplementBlock margin "Help" diagnostic.helps ++
        supplementBlock margin "Note" diagnostic.notes ++
        [String.ofList (List.replicate (numberWidth + 2) '─') ++ "╯"]
    joinWith "\n" rows ++ "\n"
  | _, _ => heading ++ "\n"

/-- A diagnostic as it is printed. -/
def report (sources : Sources) (diagnostic : Diagnostic) : String :=
  match diagnostic.span with
  | none => diagnostic.renderPlain
  | some span =>
    match sources[span.source]? with
    | none => diagnostic.renderPlain
    | some file => diagnostic.renderFramed file span

/-- Several diagnostics, one report after the other. -/
def reportAll (sources : Sources) (diagnostics : List Diagnostic) : String :=
  String.join (diagnostics.map (report sources))

end Diagnostic

end Asm65816
