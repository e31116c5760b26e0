import Asm65816.Proofs.BareWalks
import Asm65816.Proofs.LinePieces

/-!
# Pasting an included file

An included file is read on its own and built where the `.INCLUDE` stands. Putting the lines of the
file in the place of the line that includes it makes a program that assembles as well, and to the
same segments: what a line says does not depend on the text around it, unless that leaves a block
comment open.
-/

namespace Asm65816

/-! ## Block comments across lines -/

/-- Whether a block comment is open at the end of a text. -/
def endsInComment (text : String) : Bool := (stripBlockComments text.toList).2.isSome

/-- What the text belongs to behind a newline: to a comment that is open there, or to code. -/
def CommentState.after : Option Nat → CommentState
  | some opener => block opener
  | none => code

/-- The state without the place where a block comment was opened. -/
def CommentState.unplaced : CommentState → CommentState
  | block _ => block 0
  | state => state

/-- A sign of two characters does not reach over the end of a line. -/
theorem sign_within_line {condition : Prop} {rest : List Char} {sign : Char}
    (h : ∀ others, condition → rest = sign :: others → False) (hsign : sign ≠ '\n')
    (second others : List Char) (hcondition : condition) :
    rest ++ '\n' :: second = sign :: others → False := by
  cases rest with
  | nil =>
    intro hall
    exact hsign (List.cons.inj hall).1.symm
  | cons next tail =>
    intro hall
    exact h tail hcondition (congrArg (· :: tail) (List.cons.inj hall).1)

/-- Behind a newline comments are blanked as at the start of a text, unless one is open there. -/
theorem stripFrom_newline (state : CommentState) (offset : Nat) (first second : List Char) :
    stripFrom state offset (first ++ '\n' :: second) =
      ((stripFrom state offset first).1 ++ '\n' ::
          (stripFrom (.after (stripFrom state offset first).2)
            (offset + byteLength first + 1) second).1,
        (stripFrom (.after (stripFrom state offset first).2)
          (offset + byteLength first + 1) second).2) := by
  have hsize : '\n'.utf8Size = 1 := rfl
  have hsizes : '"'.utf8Size = 1 ∧ ';'.utf8Size = 1 ∧ '/'.utf8Size = 1 ∧ '*'.utf8Size = 1 ∧
    '\\'.utf8Size = 1 := by decide
  fun_induction stripFrom state offset first
  case case1 opener offset =>
    simp [stripFrom, CommentState.after, blankedChar, byteLength, hsize]
  case case2 state offset hstate =>
    cases state with
    | block opener => exact absurd rfl (hstate opener)
    | code | quoted | lineComment => simp [stripFrom, CommentState.after, byteLength, hsize]
  case case7 offset c rest hquote hmark hslash hstar chars opener hrest ih =>
    rw [List.cons_append, stripFrom]
    · simp [ih, hrest, byteLength_cons, Nat.add_assoc]
    · exact hquote
    · exact hmark
    · exact sign_within_line hslash (by decide) second
    · exact sign_within_line hstar (by decide) second
  case case11 offset c rest hquote hend hescape chars opener hrest ih =>
    rw [List.cons_append, stripFrom]
    · simp [ih, hrest, byteLength_cons, Nat.add_assoc]
    · exact hquote
    · exact hend
    · exact sign_within_line hescape (by decide) second
  case case15 opener offset c rest hclose chars unclosed hrest ih =>
    rw [List.cons_append, stripFrom]
    · simp [ih, hrest, byteLength_cons, Nat.add_assoc]
    · exact sign_within_line hclose (by decide) second
  -- In every other case the signs are written out, or a single character decides.
  all_goals
    rename_i hrest ih
    simp [stripFrom, hrest, ih, byteLength_cons, hsizes, hsize, ← Nat.add_assoc]

/-- What is left of a text does not depend on the offset at which it starts. -/
theorem stripFrom_unplaced (state : CommentState) (offset : Nat) (text : List Char) :
    ∀ state' offset', state'.unplaced = state.unplaced →
      (stripFrom state' offset' text).1 = (stripFrom state offset text).1 ∧
        (stripFrom state' offset' text).2.isSome = (stripFrom state offset text).2.isSome := by
  fun_induction stripFrom state offset text <;> intro state' offset' h <;> cases state' <;>
    grind [stripFrom, CommentState.unplaced]

theorem splitLines_ne_nil (text : List Char) : splitLines text ≠ [] := by
  cases text with
  | nil => exact List.cons_ne_nil _ _
  | cons c rest =>
    unfold splitLines
    split
    · exact List.cons_ne_nil _ _
    · split <;> exact List.cons_ne_nil _ _

theorem splitLines_newline (first second : List Char) :
    splitLines (first ++ '\n' :: second) = splitLines first ++ splitLines second := by
  induction first with
  | nil => rfl
  | cons c rest ih =>
    rw [List.cons_append, splitLines, splitLines, ih]
    split
    · rfl
    · cases h : splitLines rest with
      | nil => exact absurd h (splitLines_ne_nil rest)
      | cons line others => rfl

/-- A text in which no comment is open is read apart from what follows on the next line. -/
theorem codeLines_newline {first : String} (h : endsInComment first = false) (second : String) :
    codeLines (first ++ "\n" ++ second) = codeLines first ++ codeLines second ∧
      endsInComment (first ++ "\n" ++ second) = endsInComment second := by
  have htext : (first ++ "\n" ++ second).toList = first.toList ++ '\n' :: second.toList := by
    simp [String.toList_append]
  have hclosed : (stripBlockComments first.toList).2 = none := by
    simpa [endsInComment] using h
  have hlater := stripFrom_newline .code 0 first.toList second.toList
  have hopen : (stripFrom .code 0 first.toList).2 = none := hclosed
  rw [hopen] at hlater
  obtain ⟨hchars, hunclosed⟩ := stripFrom_unplaced .code 0 second.toList .code
    (0 + byteLength first.toList + 1) rfl
  constructor
  · simp only [codeLines, stripBlockComments, htext, hlater]
    rw [splitLines_newline, CommentState.after, hchars]
  · simp only [endsInComment, stripBlockComments, htext, hlater]
    exact hunclosed

/-- A newline at the end neither opens nor closes a comment. -/
theorem endsInComment_newline (text : String) :
    endsInComment (text ++ "\n") = endsInComment text := by
  have htext : (text ++ "\n").toList = text.toList ++ '\n' :: [] := by
    simp [String.toList_append]
  have hlater := stripFrom_newline .code 0 text.toList []
  simp only [endsInComment, stripBlockComments, htext, hlater]
  cases (stripFrom .code 0 text.toList).2 <;> rfl

/-! ## What texts say -/

/-- The text made of lines, with a newline between neighbours. -/
def textOfLines (lines : List String) : String := joinWith "\n" lines

theorem textOfLines_append {first second : List String} (hfirst : first ≠ [])
    (hsecond : second ≠ []) :
    textOfLines (first ++ second) = textOfLines first ++ "\n" ++ textOfLines second := by
  induction first with
  | nil => exact absurd rfl hfirst
  | cons line rest ih =>
    cases rest with
    | nil =>
      obtain ⟨next, others, rfl⟩ := List.exists_cons_of_ne_nil hsecond
      exact String.intercalate_cons_cons
    | cons next others =>
      have hrest := ih (List.cons_ne_nil _ _)
      simp only [textOfLines, joinWith, List.cons_append, String.intercalate_cons_cons] at hrest ⊢
      rw [hrest]
      simp only [String.append_assoc]

/-- Lines of text are read and say the given things, wherever they stand. -/
def LinesSay (texts : List (List Char)) (contents : List LineBody) : Prop :=
  ∀ source file includedFrom number offset, ∃ found : List (Option Line),
    readLines source file includedFrom number offset texts = found.map .ok ∧
      (found.filterMap id).map Line.content = contents

theorem readLines_append (source : Nat) (file : String) (includedFrom : List IncludeSite)
    (number offset : Nat) (first second : List (List Char)) :
    readLines source file includedFrom number offset (first ++ second) =
      readLines source file includedFrom number offset first ++
        readLines source file includedFrom (number + first.length)
          (offset + (first.map fun text => byteLength text + 1).sum) second := by
  induction first generalizing number offset with
  | nil => rfl
  | cons text rest ih =>
    have hnumber : number + 1 + rest.length = number + (text :: rest).length :=
      Nat.add_right_comm number 1 rest.length
    rw [List.map_cons, List.sum_cons, ← hnumber, ← Nat.add_assoc, ← Nat.add_assoc]
    exact congrArg (_ :: ·) (ih (number + 1) (offset + byteLength text + 1))

theorem linesSay_of_readLines {source : Nat} {file : String} {includedFrom : List IncludeSite}
    {number offset : Nat} {texts : List (List Char)} {found : List (Option Line)}
    (h : readLines source file includedFrom number offset texts = found.map .ok) :
    LinesSay texts ((found.filterMap id).map Line.content) := by
  intro source' file' includedFrom' number' offset'
  obtain ⟨found', hfound', hsame⟩ :=
    readLines_kept h (fun _ => false) source' file' includedFrom' number' offset'
  rw [keptLines_none] at hfound'
  refine ⟨found', hfound', hsame.trans ?_⟩
  rw [Bool.not_false, List.filter_true]

theorem LinesSay.unique {texts : List (List Char)} {contents other : List LineBody}
    (h : LinesSay texts contents) (h' : LinesSay texts other) : other = contents := by
  obtain ⟨found, hfound, rfl⟩ := h 0 "" [] 1 0
  obtain ⟨found', hfound', rfl⟩ := h' 0 "" [] 1 0
  have hsame : found' = found := by
    have hall : found'.map Except.ok = found.map Except.ok := hfound'.symm.trans hfound
    exact (List.map_injective_iff.mpr fun _ _ => Except.ok.inj) hall
  rw [hsame]

theorem LinesSay.append {first second : List (List Char)} {early late : List LineBody}
    (h : LinesSay first early) (h' : LinesSay second late) :
    LinesSay (first ++ second) (early ++ late) := by
  intro source file includedFrom number offset
  obtain ⟨found, hfound, rfl⟩ := h source file includedFrom number offset
  obtain ⟨found', hfound', rfl⟩ := h' source file includedFrom (number + first.length)
    (offset + (first.map fun text => byteLength text + 1).sum)
  refine ⟨found ++ found', ?_, ?_⟩
  · rw [readLines_append, hfound, hfound', List.map_append]
  · rw [List.filterMap_append, List.map_append]

theorem LinesSay.split {first second : List (List Char)} {contents : List LineBody}
    (h : LinesSay (first ++ second) contents) :
    ∃ early late, contents = early ++ late ∧ LinesSay first early ∧ LinesSay second late := by
  obtain ⟨found, hfound, rfl⟩ := h 0 "" [] 1 0
  have happend := readLines_append 0 "" [] 1 0 first second
  obtain ⟨front, back, rfl, hfront, hback⟩ :=
    List.map_eq_append_iff.mp (hfound.symm.trans happend)
  refine ⟨_, _, ?_, linesSay_of_readLines hfront.symm, linesSay_of_readLines hback.symm⟩
  rw [List.filterMap_append, List.map_append]

/-- What the lines of a text say, with its block comments blanked. -/
def TextSays (text : String) (contents : List LineBody) : Prop := LinesSay (codeLines text) contents

theorem textSays_of_readSource {source : Nat} {file text : String}
    {includedFrom : List IncludeSite} {read : SourceLines}
    (h : readSource source file text includedFrom = .ok read) :
    TextSays text (read.lines.map Line.content) := by
  obtain ⟨found, hfound, hlines⟩ := readSource_lines.mp ⟨read, h, rfl⟩
  rw [← hlines]
  exact linesSay_of_readLines hfound

theorem TextSays.readSource {text : String} {contents : List LineBody} (h : TextSays text contents)
    (source : Nat) (file : String) (includedFrom : List IncludeSite) :
    ∃ read, readSource source file text includedFrom = .ok read ∧
      read.lines.map Line.content = contents := by
  obtain ⟨found, hfound, rfl⟩ := h source file includedFrom 1 0
  obtain ⟨read, hread, hlines⟩ := readSource_lines.mpr ⟨found, hfound, rfl⟩
  exact ⟨read, hread, by rw [hlines]⟩

theorem textSays_nil : TextSays (textOfLines []) [] := by
  have hread : readSource 0 "" (textOfLines []) [] = .ok ⟨[], []⟩ := rfl
  exact textSays_of_readSource hread

/-- Lines of which the first part leaves no comment open say what their two parts say. -/
theorem textSays_append {first second : List String}
    (hclosed : endsInComment (textOfLines first) = false) {contents : List LineBody} :
    TextSays (textOfLines (first ++ second)) contents ↔
      ∃ early late, contents = early ++ late ∧ TextSays (textOfLines first) early ∧
        TextSays (textOfLines second) late := by
  by_cases hfirst : first = []
  · subst hfirst
    constructor
    · exact fun h => ⟨[], contents, rfl, textSays_nil, h⟩
    · rintro ⟨early, late, rfl, hearly, hlate⟩
      rw [textSays_nil.unique hearly]
      exact hlate
  by_cases hsecond : second = []
  · subst hsecond
    rw [List.append_nil]
    constructor
    · exact fun h => ⟨contents, [], (List.append_nil _).symm, h, textSays_nil⟩
    · rintro ⟨early, late, rfl, hearly, hlate⟩
      rw [textSays_nil.unique hlate, List.append_nil]
      exact hearly
  · rw [textOfLines_append hfirst hsecond, TextSays, (codeLines_newline hclosed _).1]
    constructor
    · exact LinesSay.split
    · rintro ⟨early, late, rfl, hearly, hlate⟩
      exact hearly.append hlate

/-- The only warning about a source is that a comment is open at its end. -/
theorem readSource_warnings {source : Nat} {file text : String} {includedFrom : List IncludeSite}
    {read : SourceLines} (h : readSource source file text includedFrom = .ok read) :
    read.warnings = [] ↔ endsInComment text = false := by
  unfold readSource at h
  dsimp only at h
  split at h
  case h_1 =>
    cases h
    unfold endsInComment
    cases (stripBlockComments text.toList).2 <;> simp
  case h_2 => cases h

/-! ## Pasting -/

/-- The path that a line includes, when it holds an `.INCLUDE` and nothing else. -/
def soleInclude? (line : String) : Option String :=
  match readSource 0 "" line [] with
  | .ok ⟨[⟨.statements none [statement], _⟩], []⟩ => statement.includePath?
  | _ => none

theorem soleInclude?_eq_some {line path : String} (h : soleInclude? line = some path) :
    ∃ location statement, endsInComment line = false ∧
      TextSays line [Line.content ⟨.statements none [statement], location⟩] ∧
      statement.includePath? = some path := by
  unfold soleInclude? at h
  split at h
  case h_1 statement location hread =>
    exact ⟨location, statement, (readSource_warnings hread).mp rfl, textSays_of_readSource hread, h⟩
  case h_2 => cases h

/-- Lines say the same with and without a newline behind the last of them. -/
theorem textSays_pasted {text : String} {pasted : List String}
    (hlines : text = textOfLines pasted ∨ text = textOfLines (pasted ++ [""]))
    (hclosed : endsInComment text = false) {contents : List LineBody}
    (h : TextSays text contents) :
    endsInComment (textOfLines pasted) = false ∧ TextSays (textOfLines pasted) contents := by
  rcases hlines with rfl | rfl
  · exact ⟨hclosed, h⟩
  · by_cases hnone : pasted = []
    · subst hnone
      exact ⟨hclosed, h⟩
    · have hpasted : endsInComment (textOfLines pasted) = false := by
        have hempty : textOfLines [""] = "" := rfl
        rw [textOfLines_append hnone (List.cons_ne_nil _ _), hempty, String.append_empty,
          endsInComment_newline] at hclosed
        exact hclosed
      obtain ⟨early, late, rfl, hearly, hlate⟩ := (textSays_append hpasted).mp h
      have hblank : late = [] := textSays_nil.unique hlate
      rw [hblank, List.append_nil]
      exact ⟨hpasted, hearly⟩

/-- To build a line that only includes a file is to build the lines of the file, but for a mark. -/
theorem BuildsTo.of_include {search : AssetSearch} {state last : BuildState} {line : Line}
    {statement : Statement} {location : Location} {path : String}
    (hcontent : line.content = Line.content ⟨.statements none [statement], location⟩)
    (hpath : statement.includePath? = some path)
    (hrun : BuildsTo search state [.line line] last []) :
    ∃ asset text read next, search.store.locate search.directories path = .ok asset ∧
      asset.text = .ok text ∧ TextSays text (read.map Line.content) ∧ next.bare = state.bare ∧
      (∀ inner ∈ read, inner.location.files = line.location.files ++ [asset.path]) ∧
      BuildsTo search next (lineTasks read) last [] := by
  rcases Line.content_eq hcontent with ⟨_, _, _, hbody, -⟩ |
    ⟨_, label, _, row, hbody, hline, hlabel, hrow⟩
  · cases hbody
  · cases hbody
    obtain rfl := Option.map_eq_none_iff.mp hlabel
    obtain ⟨found, rfl, hfound⟩ := List.map_eq_singleton_iff.mp hrow
    obtain ⟨-, hincludes, -⟩ := Statement.sort_unplaced hfound
    obtain ⟨-, hoperands, -⟩ := Statement.of_unplaced_eq hfound
    unfold Statement.includePath? at hpath
    split at hpath
    case isFalse => cases hpath
    case isTrue hstatement =>
      obtain ⟨mid, more, hadvanced, hrest⟩ := hrun.single
      rw [advance_statements hline] at hadvanced
      cases hadvanced
      obtain ⟨next, others, hincluded, hlines⟩ := BuildsTo.single hrest
      obtain ⟨lines, hopened, rfl⟩ := (advance_include (hincludes.trans hstatement)).mp hincluded
      obtain ⟨path', asset, text, read, hpath', hasset, htext, -, hread, rfl, rfl⟩ :=
        openInclude_eq_ok.mp hopened
      rw [hoperands, toOption_eq_some.mp hpath] at hpath'
      cases hpath'
      refine ⟨asset, text, read.lines, _, hasset, htext, textSays_of_readSource hread, ?_, ?_,
        hlines⟩
      · rw [BuildState.bare_add]
        rfl
      · intro inner hinner
        obtain ⟨hfile, hfrom⟩ := readSource_location hread hinner
        rw [Location.files_of_includedFrom hfrom, hfile]
        rfl

/-- The lines of a file in the place of the line that includes it build the same program, but for
places and a mark. -/
theorem buildProgram_pasted {search : AssetSearch} {main main' : SourceFile}
    (hname : main'.name = main.name) {source source' : SourceLines}
    (hread : readSource 0 main.name main.text [] = .ok source)
    (hread' : readSource 0 main'.name main'.text [] = .ok source') {program : Program}
    (hbuilt : buildProgram search main source.lines = .ok program)
    {statement : Statement} {location : Location} {path text : String} {asset : Asset}
    (hpath : statement.includePath? = some path)
    (hasset : search.store.locate search.directories path = .ok asset)
    (htext : asset.text = .ok text) {before pasted after : List LineBody}
    (hpasted : TextSays text pasted)
    (hlines : source.lines.map Line.content =
      before ++ ([Line.content ⟨.statements none [statement], location⟩] ++ after))
    (hlines' : source'.lines.map Line.content = before ++ (pasted ++ after)) :
    ∃ program', buildProgram search main' source'.lines = .ok program' ∧
      program'.bare = program.bare := by
  have hfiles (line : Line) (hline : line ∈ source.lines) : line.location.files = [main.name] := by
    obtain ⟨hfile, hfrom⟩ := readSource_location hread hline
    rw [Location.files, hfrom, hfile]
    rfl
  have hfiles' (line : Line) (hline : line ∈ source'.lines) :
      line.location.files = [main.name] := by
    obtain ⟨hfile, hfrom⟩ := readSource_location hread' hline
    rw [Location.files, hfrom, hfile, hname]
    rfl
  obtain ⟨last, hlast, hclosed⟩ := bind_eq_ok.mp hbuilt
  have hrun := buildLines_followed search _ _ _ _ hlast
  obtain ⟨front, behind, hsource, rfl, hbehind⟩ := List.map_eq_append_iff.mp hlines
  obtain ⟨sole, back, rfl, hsole, rfl⟩ := List.map_eq_append_iff.mp hbehind
  obtain ⟨line, rfl, hline⟩ := List.map_eq_singleton_iff.mp hsole
  obtain ⟨front', behind', hsource', hfront, hbehind'⟩ := List.map_eq_append_iff.mp hlines'
  obtain ⟨inner, back', rfl, hinner, hback⟩ := List.map_eq_append_iff.mp hbehind'
  rw [hsource] at hfiles hrun
  rw [hsource'] at hfiles'
  simp only [lineTasks, List.map_append] at hrun
  obtain ⟨first, hfirst, hrun⟩ := hrun.split
  obtain ⟨second, hsecond, hrun⟩ := hrun.split
  obtain ⟨asset', text', read, next, hasset', htext', hcontents, hnext, hinside, hincluded⟩ :=
    BuildsTo.of_include hline hpath hsecond
  cases hasset.symm.trans hasset'
  cases htext.symm.trans htext'
  have hstart : (BuildState.initial [main']).bare = (BuildState.initial [main]).bare := rfl
  obtain ⟨first', hfirst', hsame⟩ := hfirst.follow hstart (follows_lineTasks hfront
    (List.Subset.refl _) (fun line hline => hfiles line (by simp [hline]))
    fun line hline => hfiles' line (by simp [hline]))
  obtain ⟨second', hsecond', hsame⟩ := hincluded.follow (hsame.trans hnext.symm)
    (follows_lineTasks (hinner.trans (hcontents.unique hpasted))
      (List.subset_append_left _ [asset.path])
      (fun inner hmem => (hinside inner hmem).trans (by rw [hfiles line (by simp)]))
      fun line hline => hfiles' line (by simp [hline]))
  obtain ⟨last', hlast', hsame⟩ := hrun.follow hsame (follows_lineTasks hback
    (List.Subset.refl _) (fun line hline => hfiles line (by simp [hline]))
    fun line hline => hfiles' line (by simp [hline]))
  split at hclosed
  case h_1 => cases BuildState.run_eq_ok.mp hclosed
  case h_2 hstack =>
    cases hclosed
    have hclosed' : last'.captures = [] := by
      have hcaptures : last'.captures.map Capture.bare = last.captures.map Capture.bare :=
        congrArg BuildState.captures hsame
      rw [hstack] at hcaptures
      exact List.map_eq_nil_iff.mp hcaptures
    have htasks : BuildsTo search (.initial [main']) (lineTasks source'.lines) last' [] := by
      rw [hsource']
      simp only [lineTasks, List.map_append]
      exact hfirst'.done_append (hsecond'.done_append hlast')
    refine ⟨_, buildProgram_of_buildsTo hread' htasks hclosed', ?_⟩
    have hview (state : BuildState) :
        Program.bare ⟨state.sources, state.warnings, state.actions, state.macros, state.equates⟩ =
          ⟨[], [], state.bare.actions, state.bare.macros, state.bare.equates⟩ := rfl
    rw [hview, hview, hsame]

/-- Including a file is pasting it. Let a line of the main source of a program that assembles hold
an `.INCLUDE` and nothing else, with no block comment open where the line starts, and let the file
be read without warnings. Then the lines of the file in the place of that line make a main source
that assembles as well, and to the same segments. A newline at the end of the file may count as the
beginning of one more line or not. -/
theorem assemble_pasted {search : AssetSearch} {main main' : SourceFile} {listing : Bool}
    {assembly : Assembly} (hassembled : assemble search main listing = .ok assembly)
    {before after pasted : List String} {line path text : String} {asset : Asset}
    (hmain : main.text = textOfLines (before ++ line :: after))
    (hbefore : endsInComment (textOfLines before) = false)
    (hline : soleInclude? line = some path)
    (hasset : search.store.locate search.directories path = .ok asset)
    (htext : asset.text = .ok text) {read : SourceLines}
    (hread : readSource 0 asset.path text [] = .ok read) (hwarnings : read.warnings = [])
    (hpasted : text = textOfLines pasted ∨ text = textOfLines (pasted ++ [""]))
    (hname : main'.name = main.name)
    (hmain' : main'.text = textOfLines (before ++ (pasted ++ after))) :
    ∃ assembly', assemble search main' listing = .ok assembly' ∧
      assembly'.segments = assembly.segments := by
  obtain ⟨source, program, emission, hsource, hbuilt, hemit, rfl⟩ := assemble_eq_ok.mp hassembled
  obtain ⟨location, statement, hclosed, hstatement, hpath⟩ := soleInclude?_eq_some hline
  have hcontents := textSays_of_readSource hread
  obtain ⟨hends, hinside⟩ :=
    textSays_pasted hpasted ((readSource_warnings hread).mp hwarnings) hcontents
  have hall := textSays_of_readSource hsource
  rw [hmain, textSays_append hbefore] at hall
  obtain ⟨early, rest, hlines, hearly, hrest⟩ := hall
  have hsole : endsInComment (textOfLines [line]) = false := hclosed
  obtain ⟨middle, late, rfl, hmiddle, hlate⟩ := (textSays_append hsole).mp hrest
  obtain rfl := hstatement.unique hmiddle
  have hall' := (textSays_append hbefore).mpr ⟨early, _, rfl, hearly,
    (textSays_append hends).mpr ⟨_, late, rfl, hinside, hlate⟩⟩
  rw [← hmain'] at hall'
  obtain ⟨source', hsource', hlines'⟩ := hall'.readSource 0 main'.name []
  obtain ⟨program', hbuilt', hbare⟩ :=
    buildProgram_pasted hname hsource hsource' hbuilt hpath hasset htext hcontents hlines hlines'
  obtain ⟨emission', hemit', hsegments⟩ := Program.emit_bare hbare hemit
  exact ⟨_, assemble_of_emit listing hsource' hbuilt' hemit', hsegments⟩

/-- An equate, a label and an `.INCLUDE`. -/
def pastedLines : List String := ["k = 7", "here: .dw here", " .include \"deep.s\""]

/-- These lines in a file of a search directory, and the file they include. -/
def pastedSearch : AssetSearch :=
  ⟨.ofPaths [("lib/body.s", utf8Bytes (textOfLines (pastedLines ++ [""]))),
    ("deep.s", utf8Bytes " .db k /* seven */")], ["lib"]⟩

/-- A source with the given lines at the start of the body of a macro. -/
def pastedSource (lines : List String) : SourceFile :=
  ⟨"main.s", textOfLines ([" .segment \"c\",0x8000,9,0", " .c", "m: .macro x"] ++
    (lines ++ [" .db x", " .endmacro", " m 1"]))⟩

/-- A file is pasted into the body of a macro. -/
theorem assemble_pasted_macro :
    ∃ assembly assembly',
      assemble pastedSearch (pastedSource [" .include \"body.s\""]) false = .ok assembly ∧
        assemble pastedSearch (pastedSource pastedLines) false = .ok assembly' ∧
        assembly'.segments = assembly.segments := by
  obtain ⟨assembly, hassembled⟩ : ∃ assembly,
      assemble pastedSearch (pastedSource [" .include \"body.s\""]) false = .ok assembly :=
    exists_of_isOk (by decide +kernel)
  obtain ⟨asset, hasset, hfile⟩ : ∃ asset,
      pastedSearch.store.locate pastedSearch.directories "body.s" = .ok asset ∧
        (asset.path == "lib/body.s" && decide (asset.text.toOption =
          some (textOfLines (pastedLines ++ [""])))) = true :=
    exists_ok_of_any _ (by decide +kernel)
  rw [Bool.and_eq_true, beq_iff_eq, decide_eq_true_iff, toOption_eq_some] at hfile
  obtain ⟨read, hread, hwarnings⟩ : ∃ read,
      readSource 0 asset.path (textOfLines (pastedLines ++ [""])) [] = .ok read ∧
        read.warnings.isEmpty = true := by
    rw [hfile.1]
    exact exists_ok_of_any _ (by decide +kernel)
  have hbefore : endsInComment
      (textOfLines [" .segment \"c\",0x8000,9,0", " .c", "m: .macro x"]) = false := by
    decide +kernel
  have hline : soleInclude? " .include \"body.s\"" = some "body.s" := by decide +kernel
  have hname : (pastedSource pastedLines).name = "main.s" := rfl
  obtain ⟨assembly', hassembled', hsegments⟩ := assemble_pasted hassembled rfl hbefore hline hasset
    hfile.2 hread (List.isEmpty_iff.mp hwarnings) (.inr rfl) hname rfl
  exact ⟨assembly, assembly', hassembled, hassembled', hsegments⟩

end Asm65816
