import Mathlib.Algebra.GroupWithZero.Nat
import Mathlib.Data.List.Perm.Subperm
import Asm65816.Proofs.BuildRun
import Asm65816.Proofs.LinePositions

/-!
# The depth of includes

Files on the way to a line are different, and each was found under a path that some source writes
out. A source has no more `.INCLUDE` statements than bytes, so the bound on the nesting of includes
is never met, and the builder does whatever the machine without a bound does.
-/

namespace Asm65816

/-! ## Paths that are written out -/

/-- The path that an `.INCLUDE` names. -/
def Statement.includePath? (statement : Statement) : Option String :=
  if statement.includes then (expectFileName "INCLUDE" statement.operands).toOption else none

/-- The paths that the statements of a line include. -/
def LineBody.includePaths : LineBody → List String
  | equate _ _ => []
  | statements _ row => row.filterMap Statement.includePath?

/-- The paths that a text includes, if it can be read. -/
def textIncludePaths (text : String) : List String :=
  match readSource 0 "" text [] with
  | .ok read => read.lines.flatMap fun line => line.body.includePaths
  | .error _ => []

/-- Files that are read under the very paths that a table gives them. -/
def AssetStore.ofPaths (files : Table (List UInt8)) : AssetStore where
  contents := files.map Prod.snd
  read path := (files.get? path).elim (.error .missing) .ok
  covered path bytes h := by
    cases hfile : files.get? path with
    | none => simp [hfile] at h
    | some found =>
      obtain rfl : found = bytes := by simpa [hfile] using h
      exact List.mem_map_of_mem (Table.mem_of_get? hfile)

/-- The paths that the files of a store include. -/
def AssetStore.includePaths (store : AssetStore) : List String :=
  store.contents.flatMap fun content => (textOfBytes? content).elim [] textIncludePaths

/-- The path of an `.INCLUDE` is among those of its line. -/
theorem mem_includePaths {line : Line} {label : Option (Spanned String)}
    {statements : List Statement} (hbody : line.body = .statements label statements)
    {statement : Statement} (hstatement : statement ∈ statements)
    (hincludes : statement.includes = true) {path : String}
    (hpath : expectFileName "INCLUDE" statement.operands = .ok path) :
    path ∈ line.body.includePaths := by
  rw [hbody]
  refine List.mem_filterMap.mpr ⟨statement, hstatement, ?_⟩
  rw [Statement.includePath?, if_pos hincludes, toOption_eq_some]
  exact hpath

theorem LineBody.includePaths_unplaced (body : LineBody) :
    body.unplaced.includePaths = body.includePaths := by
  cases body with
  | equate name value => rfl
  | statements label row =>
    simp only [unplaced, includePaths, List.filterMap_map]
    rfl

theorem includePaths_content (lines : List Line) :
    (lines.flatMap fun line => line.body.includePaths) =
      (lines.map Line.content).flatMap LineBody.includePaths := by
  rw [List.flatMap_map]
  exact congrArg (fun paths => lines.flatMap paths)
    (funext fun line => line.body.includePaths_unplaced.symm)

/-- The paths of a source are those of its text, wherever it is read. -/
theorem readSource_includePaths {source : Nat} {file text : String}
    {includedFrom : List IncludeSite} {read : SourceLines}
    (h : readSource source file text includedFrom = .ok read) :
    (read.lines.flatMap fun line => line.body.includePaths) = textIncludePaths text := by
  obtain ⟨read', hread', hsame⟩ := readSource_content h 0 "" []
  rw [textIncludePaths, hread', includePaths_content, ← hsame, ← includePaths_content]

/-! ## Their number -/

theorem scan_length (source offset pending : Nat) (text : List Char) :
    (scan source offset pending text).length ≤ text.length := by
  induction text generalizing offset pending with
  | nil => exact Nat.le_refl _
  | cons c rest ih =>
    cases pending with
    | succ count => exact Nat.le_trans (ih _ _) (Nat.le_succ _)
    | zero =>
      rw [scan, List.length_cons]
      dsimp only
      split
      · exact Nat.le_trans (ih _ _) (Nat.le_succ _)
      · exact Nat.succ_le_succ (ih _ _)
      · exact Nat.succ_le_succ (ih _ _)

theorem lexLine_length {source offset : Nat} {text : List Char} {tokens : List Token}
    (h : lexLine source offset text = .ok tokens) : tokens.length ≤ text.length := by
  unfold lexLine at h
  dsimp only at h
  split at h
  case h_1 =>
    cases h
    exact Nat.le_trans (List.length_filterMap_le _ _) (scan_length _ _ _ _)
  case h_2 => cases h

theorem readStatements_length {limit : Nat} {afterName : Expectation} {name : Spanned String}
    {tokens : List Token} {statements : List Statement} {trailing : Option Span}
    (h : readStatements limit afterName name tokens = .ok (statements, trailing)) :
    statements.length ≤ limit := by
  induction limit generalizing afterName name tokens statements trailing with
  | zero => cases h
  | succ limit ih =>
    rw [readStatements, bind_eq_ok] at h
    obtain ⟨⟨statement, rest⟩, -, h⟩ := h
    dsimp only at h
    split at h
    · cases h
      exact Nat.succ_le_succ (Nat.zero_le _)
    · cases h
      exact Nat.succ_le_succ (Nat.zero_le _)
    · obtain ⟨⟨later, found⟩, hlater, h⟩ := bind_eq_ok.mp h
      cases h
      exact Nat.succ_le_succ (ih hlater)
    · cases h

theorem placeLabel_includePaths_length {offset : Nat} {statements : List Statement}
    {trailing : Option Span} {body : LineBody}
    (h : placeLabel offset statements trailing = .ok body) :
    body.includePaths.length ≤ statements.length := by
  have hrow : ∃ label row, body = .statements label row ∧ row.length ≤ statements.length := by
    unfold placeLabel at h
    cases statements with
    | nil => grind
    | cons first rest => grind
  obtain ⟨label, row, rfl, hlength⟩ := hrow
  exact Nat.le_trans (List.length_filterMap_le _ _) hlength

theorem readBody_includePaths_length {source offset stop : Nat} {tokens : List Token}
    {body : LineBody} (h : readBody source offset stop tokens = .ok body) :
    body.includePaths.length ≤ tokens.length := by
  unfold readBody at h
  dsimp only at h
  split at h
  · split at h
    · cases h
    · cases h
      exact Nat.zero_le _
    · cases h
  · split at h
    · cases h
    · rename_i ident span text rest _ statements trailing hstatements
      have hlength := readStatements_length hstatements
      have hpaths := placeLabel_includePaths_length h
      exact Nat.le_trans hpaths hlength
  · cases h

theorem readLine_includePaths_length {location : Location} {text : List Char} {line : Line}
    (h : readLine location text = .ok (some line)) :
    line.body.includePaths.length ≤ text.length := by
  obtain ⟨tokens, hlex, -⟩ := bind_eq_ok.mp h
  cases hlast : tokens.getLast? with
  | none =>
    obtain rfl := List.getLast?_eq_none_iff.mp hlast
    cases (readLine_blank hlex).symm.trans h
  | some last =>
    obtain ⟨-, body, hbody, hline⟩ := (readLine_eq_ok hlex hlast).mp h
    cases hline
    exact Nat.le_trans (readBody_includePaths_length hbody) (lexLine_length hlex)

theorem readLines_includePaths_length {source : Nat} {file : String}
    {includedFrom : List IncludeSite} {number offset : Nat} {texts : List (List Char)}
    {found : List (Option Line)}
    (h : readLines source file includedFrom number offset texts = found.map .ok) :
    ((found.filterMap id).flatMap fun line => line.body.includePaths).length ≤
      (texts.map List.length).sum := by
  induction texts generalizing number offset found with
  | nil =>
    obtain rfl := List.map_eq_nil_iff.mp h.symm
    exact Nat.le_refl _
  | cons text rest ih =>
    obtain ⟨line, others, rfl, hline, hothers⟩ := List.map_eq_cons_iff.mp h.symm
    have hrest := ih hothers.symm
    rw [List.map_cons, List.sum_cons]
    cases line with
    | none => exact Nat.le_trans hrest (Nat.le_add_left _ _)
    | some given =>
      rw [List.filterMap_cons_some (id_eq _), List.flatMap_cons, List.length_append]
      exact Nat.add_le_add (readLine_includePaths_length hline.symm) hrest

theorem splitLines_length (chars : List Char) :
    ((splitLines chars).map List.length).sum ≤ chars.length := by
  induction chars with
  | nil => exact Nat.le_refl _
  | cons c rest ih =>
    unfold splitLines
    split
    · simp only [List.map_cons, List.sum_cons, List.length_nil, List.length_cons]
      omega
    · split
      · rename_i first others hsplit
        rw [hsplit] at ih
        simp only [List.map_cons, List.sum_cons, List.length_cons] at ih ⊢
        omega
      · simp

theorem blankedChar_length (c : Char) : (blankedChar c).length ≤ c.utf8Size := by
  unfold blankedChar
  split
  · exact c.utf8Size_pos
  · exact Nat.le_of_eq List.length_replicate

theorem stripFrom_length (state : CommentState) (offset : Nat) (chars : List Char) :
    (stripFrom state offset chars).1.length ≤ (chars.map Char.utf8Size).sum := by
  fun_induction stripFrom state offset chars <;>
    grind [Char.utf8Size_pos, blankedChar_length]

theorem utf8ByteSize_eq (text : String) :
    text.utf8ByteSize = (text.toList.map Char.utf8Size).sum := by
  have hbytes : text.toByteArray = text.toList.utf8Encode := by
    rw [← String.toByteArray_ofList, String.ofList_toList]
  rw [String.utf8ByteSize, hbytes, List.utf8Encode, List.size_toByteArray, List.length_flatMap]
  simp only [String.length_utf8EncodeChar]

theorem textIncludePaths_length (text : String) :
    (textIncludePaths text).length ≤ text.utf8ByteSize := by
  unfold textIncludePaths
  split
  case h_2 => exact Nat.zero_le _
  case h_1 read hread =>
    obtain ⟨found, hfound, hlines⟩ := readSource_lines.mp ⟨read, hread, rfl⟩
    rw [← hlines, utf8ByteSize_eq]
    calc ((found.filterMap id).flatMap fun line => line.body.includePaths).length
        ≤ ((codeLines text).map List.length).sum := readLines_includePaths_length hfound
      _ ≤ (stripBlockComments text.toList).1.length := splitLines_length _
      _ ≤ (text.toList.map Char.utf8Size).sum := stripFrom_length _ _ _

theorem textOfBytes?_length {bytes : List UInt8} {text : String}
    (h : textOfBytes? bytes = some text) : text.utf8ByteSize = bytes.length := by
  unfold textOfBytes? String.fromUTF8? at h
  split at h
  · cases h
    rfl
  · cases h

theorem AssetStore.includePaths_length (store : AssetStore) :
    store.includePaths.length ≤ (store.contents.map List.length).sum := by
  unfold includePaths
  induction store.contents with
  | nil => exact Nat.le_refl _
  | cons content rest ih =>
    rw [List.flatMap_cons, List.length_append, List.map_cons, List.sum_cons]
    refine Nat.add_le_add ?_ ih
    cases htext : textOfBytes? content with
    | none => exact Nat.zero_le _
    | some text =>
      rw [← textOfBytes?_length htext]
      exact textIncludePaths_length text

/-- The paths under which a program can find the files that it includes. -/
def includeCandidates (search : AssetSearch) (text : String) : List String :=
  (textIncludePaths text ++ search.store.includePaths).flatMap
    (AssetStore.candidates search.directories)

theorem candidates_length (directories : List String) (path : String) :
    (AssetStore.candidates directories path).length ≤ directories.length + 1 := by
  unfold AssetStore.candidates
  split
  · simp
  · simp

theorem includeCandidates_length (search : AssetSearch) (text : String) :
    (includeCandidates search text).length ≤ includeDepth search text := by
  have hflat (paths : List String) :
      (paths.flatMap (AssetStore.candidates search.directories)).length ≤
        (search.directories.length + 1) * paths.length := by
    induction paths with
    | nil => simp
    | cons path rest ih =>
      rw [List.flatMap_cons, List.length_append, List.length_cons, Nat.mul_succ, Nat.add_comm]
      exact Nat.add_le_add ih (candidates_length _ _)
  have hwritten : (search.store.contents.foldl (fun total content => total + content.length) 0) =
      (search.store.contents.map List.length).sum := by
    rw [List.sum_eq_foldl, List.foldl_map]
  refine Nat.le_trans (hflat _) (Nat.mul_le_mul_left _ ?_)
  rw [List.length_append, hwritten]
  exact Nat.add_le_add (textIncludePaths_length text) search.store.includePaths_length

/-! ## The way to a line -/

/-- The files on the way to a place, from the main one to the one it is in. -/
def Location.files (location : Location) : List String :=
  location.includedFrom.map IncludeSite.file ++ [location.file]

/-- The files on the way to a place are different, and those behind the main one are among the
given ones. -/
structure Location.Chained (paths : List String) (level : Nat) (location : Location) : Prop where
  distinct : location.files.Nodup
  found : location.files.tail ⊆ paths
  length : location.includedFrom.length = level

theorem Location.files_of_includedFrom {location inner : Location}
    (hfrom : inner.includedFrom = location.includedFrom ++ [⟨location.file, location.line⟩]) :
    inner.files = location.files ++ [inner.file] := by
  simp [files, hfrom]

theorem isBeingRead_eq_false {location : Location} {file : String} :
    isBeingRead location file = false ↔ file ∉ location.files := by
  unfold isBeingRead Location.files
  simp only [Bool.or_eq_false_iff, beq_eq_false_iff_ne, List.any_eq_false, beq_iff_eq,
    List.mem_append, List.mem_map, List.mem_singleton]
  grind

theorem firstReadable_eq_some {store : AssetStore} {paths : List String} {asset : Asset}
    (h : store.firstReadable paths = .ok (some asset)) :
    asset.path ∈ paths ∧ store.read asset.path = .ok asset.bytes := by
  induction paths with
  | nil => cases h
  | cons path rest ih =>
    unfold AssetStore.firstReadable at h
    split at h
    case h_1 bytes hread =>
      cases h
      exact ⟨List.mem_cons_self, hread⟩
    case h_2 =>
      obtain ⟨hpath, hread⟩ := ih h
      exact ⟨List.mem_cons_of_mem _ hpath, hread⟩
    case h_3 => cases h

/-- A file that is found has one of the paths that are tried, and is read under it. -/
theorem locate_eq_ok {store : AssetStore} {directories : List String} {path : String}
    {asset : Asset} (h : store.locate directories path = .ok asset) :
    asset.path ∈ AssetStore.candidates directories path ∧
      store.read asset.path = .ok asset.bytes := by
  obtain ⟨found, hfound, h⟩ := bind_eq_ok.mp h
  split at h
  case h_1 =>
    cases h
    exact firstReadable_eq_some hfound
  case h_2 => split at h <;> cases h

theorem asset_text_eq_ok {asset : Asset} {text : String} :
    asset.text = .ok text ↔ textOfBytes? asset.bytes = some text := by
  unfold Asset.text
  split <;> simp [*]

/-- Files of another store, each under its path, with texts that are related to those of the first
store. -/
structure AssetStore.Changes (related : String → String → String → Prop)
    (store other : AssetStore) : Prop where
  unreadable : ∀ path fault, store.read path = .error fault → other.read path = .error fault
  readable : ∀ path bytes, store.read path = .ok bytes →
    ∃ bytes', other.read path = .ok bytes' ∧
      ∀ text, textOfBytes? bytes = some text →
        ∃ text', textOfBytes? bytes' = some text' ∧ related path text text'

section Changing

variable {related : String → String → String → Prop} {store other : AssetStore}

theorem firstReadable_changes (h : store.Changes related other) {paths : List String}
    {asset : Asset} (hfound : store.firstReadable paths = .ok (some asset)) :
    ∃ bytes, other.firstReadable paths = .ok (some ⟨asset.path, bytes⟩) ∧
      other.read asset.path = .ok bytes := by
  induction paths with
  | nil => cases hfound
  | cons path rest ih =>
    unfold AssetStore.firstReadable at hfound ⊢
    split at hfound
    case h_1 bytes hread =>
      cases hfound
      obtain ⟨bytes', hread', -⟩ := h.readable path bytes hread
      rw [hread']
      exact ⟨bytes', rfl, rfl⟩
    case h_2 hread =>
      rw [h.unreadable path _ hread]
      exact ih hfound
    case h_3 => cases hfound

/-- A source that can be included is found in both stores at the same place. -/
theorem locate_changes (h : store.Changes related other) {directories : List String}
    {path text : String} {asset : Asset} (hasset : store.locate directories path = .ok asset)
    (htext : asset.text = .ok text) :
    ∃ asset' text', other.locate directories path = .ok asset' ∧ asset'.path = asset.path ∧
      asset'.text = .ok text' ∧ related asset.path text text' := by
  obtain ⟨-, hread⟩ := locate_eq_ok hasset
  obtain ⟨bytes, hbytes, htexts⟩ := h.readable _ _ hread
  obtain ⟨text', htext', hrelated⟩ := htexts text (asset_text_eq_ok.mp htext)
  obtain ⟨found, hfound, hasset⟩ := bind_eq_ok.mp hasset
  split at hasset
  case h_1 =>
    cases hasset
    obtain ⟨bytes', hfound', hread'⟩ := firstReadable_changes h hfound
    obtain rfl := Except.ok.inj (hread'.symm.trans hbytes)
    refine ⟨⟨asset.path, bytes'⟩, text', ?_, rfl, asset_text_eq_ok.mpr htext', hrelated⟩
    rw [AssetStore.locate, hfound']
    rfl
  case h_2 => split at hasset <;> cases hasset

end Changing

theorem Location.Chained.enter {paths : List String} {level : Nat} {location inner : Location}
    (h : location.Chained paths level) (hfresh : isBeingRead location inner.file = false)
    (hfound : inner.file ∈ paths)
    (hfrom : inner.includedFrom = location.includedFrom ++ [⟨location.file, location.line⟩]) :
    inner.Chained paths (level + 1) := by
  have hfiles := files_of_includedFrom hfrom
  refine ⟨?_, ?_, ?_⟩
  · rw [hfiles, List.nodup_append]
    refine ⟨h.distinct, by simp, ?_⟩
    intro file hfile other hother
    rw [List.mem_singleton.mp hother]
    rintro rfl
    exact isBeingRead_eq_false.mp hfresh hfile
  · have hne : location.files ≠ [] := by simp [files]
    rw [hfiles, List.tail_append_of_ne_nil hne]
    exact List.append_subset.mpr ⟨h.found, by simpa using hfound⟩
  · rw [hfrom, List.length_append, h.length]
    rfl

theorem Location.Chained.narrow {paths : List String} {level : Nat} {location : Location}
    (h : location.Chained paths level) {span : Span} :
    (location.narrow span).Chained paths level :=
  ⟨h.distinct, h.found, h.length⟩

/-- There are no more includes on the way to a place than paths. -/
theorem Location.Chained.level_le {paths : List String} {level : Nat} {location : Location}
    (h : location.Chained paths level) : level ≤ paths.length := by
  have hlength := (List.subperm_of_subset h.distinct.tail h.found).length_le
  rwa [List.length_tail, files, List.length_append, List.length_map, h.length,
    List.length_singleton, Nat.add_sub_cancel] at hlength

/-! ## Building with the bound -/

/-- Paths that cover all that a search can lead to from the files of its store. -/
def AssetSearch.Covers (search : AssetSearch) (paths : List String) : Prop :=
  ∀ path ∈ search.store.includePaths, AssetStore.candidates search.directories path ⊆ paths

/-- A line on the way of whose includes lie the given paths only. -/
structure Line.Leads (search : AssetSearch) (paths : List String) (level : Nat)
    (line : Line) : Prop where
  chained : line.location.Chained paths level
  named : ∀ path ∈ line.body.includePaths, AssetStore.candidates search.directories path ⊆ paths

section Bounded

variable {search : AssetSearch} {paths : List String} {level : Nat} {state next : BuildState}

/-- A file that is found and is not being read lies one level deeper. -/
theorem Location.Chained.enter_located {operands : List Expr} {location inner : Location}
    {path : String} {asset : Asset} (hchained : location.Chained paths level)
    (hnamed : ∀ path, expectFileName "INCLUDE" operands = .ok path →
      AssetStore.candidates search.directories path ⊆ paths)
    (hpath : expectFileName "INCLUDE" operands = .ok path)
    (hasset : search.store.locate search.directories path = .ok asset)
    (hfresh : isBeingRead location asset.path = false) (hfile : inner.file = asset.path)
    (hfrom : inner.includedFrom = location.includedFrom ++ [⟨location.file, location.line⟩]) :
    inner.Chained paths (level + 1) := by
  have hfound : asset.path ∈ paths := hnamed path hpath (locate_eq_ok hasset).1
  exact hchained.enter (hfile ▸ hfresh) (hfile ▸ hfound) hfrom

/-- Only so many levels deep can a file be found that is not being read. -/
theorem Location.Chained.level_lt {operands : List Expr} {location : Location}
    {path : String} {asset : Asset} (hchained : location.Chained paths level)
    (hnamed : ∀ path, expectFileName "INCLUDE" operands = .ok path →
      AssetStore.candidates search.directories path ⊆ paths)
    (hpath : expectFileName "INCLUDE" operands = .ok path)
    (hasset : search.store.locate search.directories path = .ok asset)
    (hfresh : isBeingRead location asset.path = false) : level + 1 ≤ paths.length := by
  let inner : Location :=
    ⟨asset.path, 0, default, location.includedFrom ++ [⟨location.file, location.line⟩]⟩
  have hinner : inner.Chained paths (level + 1) :=
    hchained.enter_located hnamed hpath hasset hfresh rfl rfl
  exact hinner.level_le

/-- The lines of an included file lead on to the same paths, one level deeper. -/
theorem openInclude_leads (hcovers : search.Covers paths) {operands : List Expr}
    {location : Location} {lines : List Line} (hchained : location.Chained paths level)
    (hnamed : ∀ path, expectFileName "INCLUDE" operands = .ok path →
      AssetStore.candidates search.directories path ⊆ paths)
    (h : openInclude search operands location state = .ok (next, lines)) :
    level + 1 ≤ paths.length ∧ ∀ line ∈ lines, line.Leads search paths (level + 1) := by
  obtain ⟨path, asset, text, read, hpath, hasset, htext, hfresh, hread, -, rfl⟩ :=
    openInclude_eq_ok.mp h
  refine ⟨hchained.level_lt hnamed hpath hasset hfresh, fun line hline => ?_⟩
  obtain ⟨hfile, hfrom⟩ := readSource_location hread hline
  refine ⟨hchained.enter_located hnamed hpath hasset hfresh hfile hfrom,
    fun inner hinner => hcovers inner ?_⟩
  have hdecoded : textOfBytes? asset.bytes = some text := by
    unfold Asset.text at htext
    split at htext
    case h_1 found hfound =>
      cases htext
      exact hfound
    case h_2 => cases htext
  have hwritten : inner ∈ textIncludePaths text := by
    rw [← readSource_includePaths hread]
    exact List.mem_flatMap.mpr ⟨line, hline, hinner⟩
  refine List.mem_flatMap.mpr
    ⟨asset.bytes, search.store.covered _ _ (locate_eq_ok hasset).2, ?_⟩
  rw [hdecoded]
  exact hwritten

/-- A way of building the lines of included files that does what the machine does. -/
def DoesIncludes (search : AssetSearch) (paths : List String) (level : Nat)
    (deeper : Option LineBuilder) : Prop :=
  ∀ ⦃lines : List Line⦄ ⦃state last : BuildState⦄, level + 1 ≤ paths.length →
    (∀ line ∈ lines, line.Leads search paths (level + 1)) →
      BuildsTo search state (lineTasks lines) last [] →
        ∃ build, deeper = some build ∧ build lines state = .ok last

theorem BuildsTo.buildLine {deeper : Option LineBuilder} (hcovers : search.Covers paths)
    (hdeeper : DoesIncludes search paths level deeper) {line : Line}
    (hline : line.Leads search paths level)
    (h : BuildsTo search state [.line line] next []) :
    buildLine search deeper state line = .ok next := by
  obtain ⟨mid, more, hadvanced, hrest⟩ := h.single
  cases hbody : line.body with
  | equate name value =>
    obtain ⟨hdefined, rfl⟩ := (advance_equate hbody).mp hadvanced
    cases hrest
    simp only [Asm65816.buildLine, hbody]
    exact BuildState.run_eq_ok.mpr hdefined
  | statements label statements =>
    rw [advance_statements hbody] at hadvanced
    cases hadvanced
    rw [buildLine_eq deeper line hbody]
    refine BuildsTo.foldlM (fun statement hstatement state next hdone => ?_) hrest
    obtain ⟨opened, inner, hadvanced, hinner⟩ := hdone.single
    cases hincludes : statement.includes with
    | false =>
      obtain ⟨hbuilt, rfl⟩ := (advance_statement hincludes).mp hadvanced
      cases hinner
      rwa [buildStatement_of_not_includes hincludes deeper none]
    | true =>
      obtain ⟨lines, hopened, rfl⟩ := (advance_include hincludes).mp hadvanced
      have hnamed (path : String)
          (hpath : expectFileName "INCLUDE" statement.operands = .ok path) :
          AssetStore.candidates search.directories path ⊆ paths :=
        hline.named path (mem_includePaths hbody hstatement hincludes hpath)
      obtain ⟨hlevel, hlines⟩ := openInclude_leads hcovers hline.chained.narrow hnamed hopened
      obtain ⟨build, rfl, hbuilt⟩ := hdeeper hlevel hlines hinner
      rw [buildStatement_of_includes hincludes, includeFile_eq_openInclude, bind_eq_ok]
      exact ⟨(opened, lines), hopened, hbuilt⟩

/-- The builder with room for all paths does what the machine without a bound does. -/
theorem BuildsTo.buildLines (hcovers : search.Covers paths) {depth : Nat}
    (hroom : paths.length ≤ level + depth) {lines : List Line}
    (hlines : ∀ line ∈ lines, line.Leads search paths level)
    (h : BuildsTo search state (lineTasks lines) next []) :
    buildLines search depth lines state = .ok next := by
  induction depth generalizing level state next lines with
  | zero =>
    have hdeeper : DoesIncludes search paths level none := by
      intro lines state last hlevel
      omega
    exact BuildsTo.foldlM (fun line hline state next hdone =>
      BuildsTo.buildLine hcovers hdeeper (hlines line hline) hdone) h
  | succ depth ih =>
    have hdeeper : DoesIncludes search paths level (some (Asm65816.buildLines search depth)) := by
      intro lines state last hlevel hinner hdone
      exact ⟨_, rfl, ih (by omega) hinner hdone⟩
    exact BuildsTo.foldlM (fun line hline state next hdone =>
      BuildsTo.buildLine hcovers hdeeper (hlines line hline) hdone) h

end Bounded

/-- The paths that a program can find its files under cover the files of its store. -/
theorem includeCandidates_covers (search : AssetSearch) (text : String) :
    search.Covers (includeCandidates search text) := by
  intro path hpath candidate hcandidate
  exact List.mem_flatMap.mpr ⟨path, List.mem_append_right _ hpath, hcandidate⟩

/-- The lines of a main source lead to the paths that the program can find its files under. -/
theorem mainLines_lead {search : AssetSearch} {main : SourceFile} {read : SourceLines}
    (hread : readSource 0 main.name main.text [] = .ok read) {line : Line}
    (hline : line ∈ read.lines) : line.Leads search (includeCandidates search main.text) 0 := by
  obtain ⟨hfile, hfrom⟩ := readSource_location hread hline
  refine ⟨⟨?_, ?_, ?_⟩, fun path hpath candidate hcandidate => ?_⟩
  · simp [Location.files, hfrom]
  · simp [Location.files, hfrom]
  · rw [hfrom]
    rfl
  · refine List.mem_flatMap.mpr ⟨path, List.mem_append_left _ ?_, hcandidate⟩
    rw [← readSource_includePaths hread]
    exact List.mem_flatMap.mpr ⟨line, hline, hpath⟩

/-- A main source is built when the machine without a bound comes to the end of its lines with no
block open. -/
theorem buildProgram_of_buildsTo {search : AssetSearch} {main : SourceFile} {read : SourceLines}
    (hread : readSource 0 main.name main.text [] = .ok read) {last : BuildState}
    (h : BuildsTo search (.initial [main]) (lineTasks read.lines) last [])
    (hclosed : last.captures = []) :
    buildProgram search main read.lines =
      .ok ⟨last.sources, last.warnings, last.actions, last.macros, last.equates⟩ := by
  have hbuilt := h.buildLines (includeCandidates_covers search main.text)
    (by simpa using includeCandidates_length search main.text) fun line => mainLines_lead hread
  unfold buildProgram
  rw [hbuilt, ok_bind, hclosed]
  rfl

end Asm65816
