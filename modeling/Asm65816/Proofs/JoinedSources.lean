import Asm65816.Proofs.IncludeDepth
import Asm65816.Proofs.MovedLines
import Asm65816.Proofs.TextPositions

/-!
# Reading a text behind another

A text that stands behind another and a newline is read as it is alone, further on by the bytes and
lines in front of it, unless the first text leaves a block comment open. Each of the two has its own
lines, warnings and reports, and those of the first come first.
-/

namespace Asm65816

/-! ## The text in front -/

/-- The state, when the text starts further on. -/
def CommentState.moved (distance : Nat) : CommentState → CommentState
  | block opener => block (opener + distance)
  | state => state

/-- The comments of a text do not depend on where it stands. -/
theorem stripFrom_moved (distance : Nat) (state : CommentState) (offset : Nat)
    (text : List Char) :
    stripFrom (state.moved distance) (offset + distance) text =
      ((stripFrom state offset text).1, (stripFrom state offset text).2.map (· + distance)) := by
  fun_induction stripFrom state offset text <;> grind [stripFrom, CommentState.moved]

theorem byteLength_strip (text : List Char) :
    byteLength (stripBlockComments text).1 = byteLength text := by
  rw [← bytesOf_length, ← bytesOf_length]
  exact length_of_newlineMask (newlineMask_strip text)

theorem count_strip (text : List Char) :
    (stripBlockComments text).1.count '\n' = text.count '\n' := by
  have hmask (chars : List Char) :
      chars.count '\n' = (newlineMask (bytesOf chars)).countP id := by
    rw [← countP_newline, newlineMask, List.countP_map]
    rfl
  rw [hmask, hmask, newlineMask_strip]

theorem byteLength_toList (text : String) : byteLength text.toList = text.utf8ByteSize := by
  rw [utf8ByteSize_eq]
  generalize text.toList = chars
  induction chars with
  | nil => rfl
  | cons c rest ih => rw [byteLength_cons, ih, List.map_cons, List.sum_cons]

/-- A text has as many lines as it has newlines, and one more. -/
theorem splitLines_count (text : List Char) :
    (splitLines text).length = text.count '\n' + 1 := by
  induction text with
  | nil => rfl
  | cons c rest ih =>
    rw [splitLines]
    split
    case isTrue hc =>
      rw [List.length_cons, ih, hc, List.count_cons_self]
    case isFalse hc =>
      rw [List.count_cons_of_ne hc, ← ih]
      cases hlines : splitLines rest with
      | nil => exact absurd hlines (splitLines_ne_nil rest)
      | cons line others => rfl

/-- Each line takes its bytes and a newline. -/
theorem splitLines_bytes (text : List Char) :
    ((splitLines text).map fun line => byteLength line + 1).sum = byteLength text + 1 := by
  induction text with
  | nil => rfl
  | cons c rest ih =>
    rw [splitLines, byteLength_cons]
    split
    case isTrue hc =>
      have hsize : '\n'.utf8Size = 1 := rfl
      have hempty : byteLength [] = 0 := rfl
      rw [List.map_cons, List.sum_cons, ih, hc, hsize, hempty, Nat.zero_add, Nat.add_assoc]
    case isFalse hc =>
      cases hlines : splitLines rest with
      | nil => exact absurd hlines (splitLines_ne_nil rest)
      | cons line others =>
        rw [hlines, List.map_cons, List.sum_cons] at ih
        rw [List.map_cons, List.sum_cons, byteLength_cons]
        omega

/-! ## Sources as lists of outcomes -/

section Outcomes

variable (source : Nat) (file : String) (includedFrom : List IncludeSite)

/-- The outcomes of the lines of a text. -/
def lineOutcomes (text : String) : List (Except (List Diagnostic) (Option Line)) :=
  readLines source file includedFrom 1 0 (codeLines text)

/-- The reports on the lines of a text. -/
def lineReports (text : String) : List Diagnostic :=
  (failures (lineOutcomes source file includedFrom text)).flatten

/-- The lines of a text that are read. -/
def linesRead (text : String) : List Line :=
  ((lineOutcomes source file includedFrom text).filterMap Except.toOption).filterMap id

/-- The warnings about a text. -/
def commentWarnings (text : String) : List Diagnostic :=
  (stripBlockComments text.toList).2.toList.map (unterminatedComment source)

variable {source file includedFrom}

theorem readSource_eq (text : String) :
    readSource source file text includedFrom =
      match lineReports source file includedFrom text with
      | [] => .ok ⟨linesRead source file includedFrom text, commentWarnings source text⟩
      | report :: others => .error (report :: others) := by
  unfold readSource lineReports linesRead lineOutcomes codeLines
  dsimp only
  generalize (failures _).flatten = reports
  cases reports with
  | nil | cons => rfl

/-- A source is read when there are no reports on its lines. -/
theorem readSource_eq_ok {text : String} {read : SourceLines} :
    readSource source file text includedFrom = .ok read ↔
      lineReports source file includedFrom text = [] ∧
        read = ⟨linesRead source file includedFrom text, commentWarnings source text⟩ := by
  rw [readSource_eq]
  cases lineReports source file includedFrom text with
  | nil => simp [eq_comm]
  | cons report others => simp

theorem readSource_eq_error {text : String} {reports : List Diagnostic} :
    readSource source file text includedFrom = .error reports ↔
      reports ≠ [] ∧ lineReports source file includedFrom text = reports := by
  rw [readSource_eq]
  cases lineReports source file includedFrom text with
  | nil => simp [eq_comm]
  | cons report others =>
    constructor
    · rintro ⟨⟩
      exact ⟨List.cons_ne_nil _ _, rfl⟩
    · exact fun h => congrArg Except.error h.2

end Outcomes

/-! ## Joined texts -/

section Joined

variable (source : Nat) (file : String) (includedFrom : List IncludeSite) {first : String}

/-- The text behind a closed one has its own comments, further on. -/
theorem commentWarnings_newline (h : (stripBlockComments first.toList).2 = none) (second : String) :
    commentWarnings source (first ++ "\n" ++ second) =
      (commentWarnings source second).map (Diagnostic.moved (first.utf8ByteSize + 1)) := by
  have htext : (first ++ "\n" ++ second).toList = first.toList ++ '\n' :: second.toList := by
    simp [String.toList_append]
  have hfirst : (stripFrom .code 0 first.toList).2 = none := h
  have hcomments : (stripBlockComments (first ++ "\n" ++ second).toList).2 =
      (stripBlockComments second.toList).2.map (· + (first.utf8ByteSize + 1)) := by
    have hmoved := stripFrom_moved (first.utf8ByteSize + 1) .code 0 second.toList
    have hstate : CommentState.code.moved (first.utf8ByteSize + 1) = .code := rfl
    rw [hstate, ← Nat.add_assoc] at hmoved
    rw [htext, stripBlockComments, stripFrom_newline, hfirst, byteLength_toList, CommentState.after,
      hmoved]
    rfl
  rw [commentWarnings, commentWarnings, hcomments]
  cases (stripBlockComments second.toList).2 with
  | none => rfl
  | some opener =>
    have hmoved (distance : Nat) : unterminatedComment source (opener + distance) =
        (unterminatedComment source opener).moved distance := by
      rw [unterminatedComment, Nat.add_right_comm]
      rfl
    exact congrArg (fun warning => [warning]) (hmoved _)

/-- The outcomes of two texts behind each other are those of the first and then those of the
second, further on. -/
theorem lineOutcomes_newline (h : (stripBlockComments first.toList).2 = none) (second : String) :
    lineOutcomes source file includedFrom (first ++ "\n" ++ second) =
      lineOutcomes source file includedFrom first ++
        (lineOutcomes source file includedFrom second).map
          (carried (List.map (Diagnostic.moved (first.utf8ByteSize + 1)))
            (Option.map (Line.moved (first.utf8ByteSize + 1) (first.toList.count '\n' + 1)))) := by
  have hclosed : endsInComment first = false := by
    rw [endsInComment, h]
    rfl
  have hcount : (codeLines first).length = first.toList.count '\n' + 1 := by
    rw [codeLines, splitLines_count, count_strip]
  have hbytes : ((codeLines first).map fun line => byteLength line + 1).sum =
      first.utf8ByteSize + 1 := by
    rw [codeLines, splitLines_bytes, byteLength_strip, byteLength_toList]
  rw [lineOutcomes, (codeLines_newline hclosed second).1, readLines_append, hcount, hbytes,
    readLines_moved]
  rfl

end Joined

/-- The reports on a text; none where it is read. -/
def reportsOf : Except (List Diagnostic) SourceLines → List Diagnostic
  | .ok _ => []
  | .error reports => reports

theorem reportsOf_readSource (source : Nat) (file text : String) (includedFrom : List IncludeSite) :
    reportsOf (readSource source file text includedFrom) =
      lineReports source file includedFrom text := by
  rw [readSource_eq]
  cases lineReports source file includedFrom text with
  | nil | cons => rfl

/-- Reading goes line by line. Where no block comment is open at the end of a text, what follows it
on the next line is read as it would be alone: the lines and warnings of both together are those of
the first and then those of the second, with spans moved by the bytes in front and lines numbered
from there on. They are not read exactly when one of them is not, with the reports on the first and
then those on the second, moved alike. -/
theorem readSource_newline {first : String} (h : (stripBlockComments first.toList).2 = none)
    (second : String) (source : Nat) (file : String) (includedFrom : List IncludeSite) :
    (∀ read, readSource source file (first ++ "\n" ++ second) includedFrom = .ok read ↔
      ∃ early late, readSource source file first includedFrom = .ok early ∧
        readSource source file second includedFrom = .ok late ∧
        read.lines = early.lines ++
          late.lines.map (Line.moved (first.utf8ByteSize + 1) (first.toList.count '\n' + 1)) ∧
        read.warnings =
          early.warnings ++ late.warnings.map (Diagnostic.moved (first.utf8ByteSize + 1))) ∧
    ∀ reports, readSource source file (first ++ "\n" ++ second) includedFrom = .error reports ↔
      ((∃ early, readSource source file first includedFrom = .error early) ∨
        ∃ late, readSource source file second includedFrom = .error late) ∧
      reports = reportsOf (readSource source file first includedFrom) ++
        (reportsOf (readSource source file second includedFrom)).map
          (Diagnostic.moved (first.utf8ByteSize + 1)) := by
  have houtcomes := lineOutcomes_newline source file includedFrom h second
  have hwarnings := commentWarnings_newline source h second
  have hreports : lineReports source file includedFrom (first ++ "\n" ++ second) =
      lineReports source file includedFrom first ++
        (lineReports source file includedFrom second).map
          (Diagnostic.moved (first.utf8ByteSize + 1)) := by
    rw [lineReports, lineReports, lineReports, houtcomes, failures, List.filterMap_append,
      List.flatten_append, List.map_flatten, ← failures_carried]
    rfl
  have hlines : linesRead source file includedFrom (first ++ "\n" ++ second) =
      linesRead source file includedFrom first ++
        (linesRead source file includedFrom second).map
          (Line.moved (first.utf8ByteSize + 1) (first.toList.count '\n' + 1)) := by
    rw [linesRead, linesRead, linesRead, houtcomes, List.filterMap_append, List.filterMap_append,
      filterMap_toOption_carried, List.filterMap_map, List.map_filterMap]
    rfl
  have hfirst : commentWarnings source first = [] := by
    rw [commentWarnings, h]
    rfl
  constructor
  · intro read
    simp only [readSource_eq_ok, hreports, List.append_eq_nil_iff, List.map_eq_nil_iff, hlines,
      hwarnings]
    constructor
    · rintro ⟨⟨hearly, hlate⟩, rfl⟩
      refine ⟨_, _, ⟨hearly, rfl⟩, ⟨hlate, rfl⟩, rfl, ?_⟩
      rw [hfirst]
      rfl
    · rintro ⟨early, late, ⟨hearly, rfl⟩, ⟨hlate, rfl⟩, hread, hwarned⟩
      refine ⟨⟨hearly, hlate⟩, ?_⟩
      rw [hfirst] at hwarned
      obtain ⟨lines, warnings⟩ := read
      exact congrArg₂ SourceLines.mk hread hwarned
  · intro reports
    simp only [readSource_eq_error, reportsOf_readSource, hreports]
    constructor
    · rintro ⟨hsome, rfl⟩
      refine ⟨?_, rfl⟩
      by_cases hearly : lineReports source file includedFrom first = []
      · refine .inr ⟨_, fun hlate => hsome ?_, rfl⟩
        rw [hearly, hlate]
        rfl
      · exact .inl ⟨_, hearly, rfl⟩
    · rintro ⟨hsome, rfl⟩
      refine ⟨fun hnone => ?_, rfl⟩
      obtain ⟨hearly, hlate⟩ := List.append_eq_nil_iff.mp hnone
      rcases hsome with ⟨early, hne, rfl⟩ | ⟨late, hne, rfl⟩
      · exact hne hearly
      · exact hne (List.map_eq_nil_iff.mp hlate)

/-- A text of 14 bytes that ends in a line comment, with an opener and a character of two bytes. -/
def openerText : String := "x: nop ; /* é"

/-- Behind that text, a comment that nothing closes and a fault are reported 15 bytes further on. -/
theorem readSource_newline_opener :
    (stripBlockComments openerText.toList).2 = none ∧ openerText.utf8ByteSize = 14 ∧
    (∃ read early late, readSource 0 "a.s" (openerText ++ "\n" ++ "k = 1 /* é") [] = .ok read ∧
      readSource 0 "a.s" openerText [] = .ok early ∧
      readSource 0 "a.s" "k = 1 /* é" [] = .ok late ∧
      read.lines = early.lines ++ late.lines.map (Line.moved 15 1) ∧
      read.warnings = [unterminatedComment 0 21]) ∧
    readSource 0 "a.s" " ! 1" [] = .error [⟨.error, "invalid syntax: expected name, found '!'",
      some ⟨0, 1, 2⟩, []⟩] ∧
    readSource 0 "a.s" (openerText ++ "\n" ++ " ! 1") [] = .error [⟨.error,
      "invalid syntax: expected name, found '!'", some ⟨0, 16, 17⟩, []⟩] := by
  have hclosed : (stripBlockComments openerText.toList).2 = none := by decide +kernel
  have hsize : openerText.utf8ByteSize = 14 := by decide +kernel
  have hcount : openerText.toList.count '\n' = 0 := by decide +kernel
  obtain ⟨read, hread, hwarnings⟩ : ∃ read,
      readSource 0 "a.s" (openerText ++ "\n" ++ "k = 1 /* é") [] = .ok read ∧
        (read.warnings == [unterminatedComment 0 21]) = true :=
    exists_ok_of_any _ (by decide +kernel)
  obtain ⟨early, late, hearly, hlate, hlines, -⟩ :=
    ((readSource_newline hclosed "k = 1 /* é" 0 "a.s" []).1 read).mp hread
  rw [hsize, hcount] at hlines
  have hfault : readSource 0 "a.s" " ! 1" [] = .error [⟨.error,
      "invalid syntax: expected name, found '!'", some ⟨0, 1, 2⟩, []⟩] := by
    rfl
  have hfaulty := ((readSource_newline hclosed " ! 1" 0 "a.s" []).2 _).mpr
    ⟨.inr ⟨_, hfault⟩, rfl⟩
  rw [hearly, hfault, hsize] at hfaulty
  exact ⟨hclosed, hsize, ⟨read, early, late, hread, hearly, hlate, hlines, beq_iff_eq.mp hwarnings⟩,
    hfault, hfaulty⟩

end Asm65816
