import Asm65816.Proofs.Agreement

/-!
# The names of segments

Segments are found by their names in upper case, each under its own, and handed out by their names
in lower case. For names in ASCII the two agree on which names are the same, so that no segment
takes the place of another.
-/

namespace Asm65816

/-- A text in ASCII. -/
def IsAscii (text : String) : Prop := ∀ c ∈ text.toList, c.toNat < 0x80

instance (text : String) : Decidable (IsAscii text) :=
  List.decidableBAll (fun c : Char => c.toNat < 0x80) text.toList

/-- Upper case does not tell whether a letter was in lower case before. -/
theorem toUpper_toLower (c : Char) : c.toLower.toUpper = c.toUpper := by
  by_cases hascii : c.toNat < 0x80
  · have hall : ∀ code : Fin 0x80,
        (Char.ofNat code).toLower.toUpper = (Char.ofNat code).toUpper := by decide
    have hc := hall ⟨c.toNat, hascii⟩
    rwa [Char.ofNat_toNat] at hc
  · have hlower : c.toLower = c := by
      refine dif_neg fun hletter => hascii ?_
      have hlast : c.val.toNat ≤ 90 := UInt32.le_iff_toNat_le.mp hletter.2
      have hcode : c.toNat = c.val.toNat := rfl
      omega
    rw [hlower]

/-- The upper case of a text in ASCII, letter by letter. -/
theorem flatMap_upperChar {text : List Char} (h : ∀ c ∈ text, c.toNat < 0x80) :
    text.flatMap upperChar = text.map Char.toUpper := by
  induction text with
  | nil => rfl
  | cons c rest ih =>
    have hrest := ih fun other hother => h other (List.mem_cons_of_mem _ hother)
    rw [List.flatMap_cons, upperChar, if_pos (h c List.mem_cons_self), hrest, List.map_cons,
      List.singleton_append]

/-- The lower case of a text in ASCII, letter by letter. -/
theorem lowerFrom_ascii {text : List Char} (before : List Char)
    (h : ∀ c ∈ text, c.toNat < 0x80) : lowerFrom before text = text.map Char.toLower := by
  induction text generalizing before with
  | nil => rfl
  | cons c rest ih =>
    have hc := h c List.mem_cons_self
    have hrest := ih (c :: before) fun other hother => h other (List.mem_cons_of_mem _ hother)
    have hsigma : c.toNat ≠ 0x3A3 := by omega
    rw [lowerFrom, if_neg hsigma, lowerChar, if_pos hc, hrest, List.map_cons,
      List.singleton_append]

/-- Names in ASCII with the same lower case have the same upper case. -/
theorem upperText_eq_of_lowerText_eq {first second : String} (hfirst : IsAscii first)
    (hsecond : IsAscii second) (h : lowerText first = lowerText second) :
    upperText first = upperText second := by
  have hupper {text : String} (hascii : IsAscii text) :
      upperText text = String.ofList ((lowerText text).toList.map Char.toUpper) := by
    rw [upperText, lowerText, flatMap_upperChar hascii, lowerFrom_ascii [] hascii,
      String.toList_ofList, List.map_map]
    congr 1
    exact List.map_congr_left fun c _ => (toUpper_toLower c).symm
  rw [hupper hfirst, hupper hsecond, h]

/-! ## Every segment under its own name -/

namespace Layout

/-- The segments have different names and are found under them. -/
structure Indexed (layout : Layout) : Prop where
  distinct : layout.keys.Nodup
  named : ∀ key outline, layout.outline? key = some outline → key = upperText outline.name

/-- Layouts with the same names and ranges are indexed alike. -/
theorem Indexed.of_same {layout next : Layout} (h : Indexed layout)
    (hkeys : next.keys = layout.keys)
    (houtline : ∀ key outline, next.outline? key = some outline →
      ∃ resume, layout.outline? key = some { outline with resume := resume }) : Indexed next := by
  refine ⟨hkeys ▸ h.distinct, fun key outline hnext => ?_⟩
  obtain ⟨resume, hlayout⟩ := houtline key outline hnext
  exact h.named key { outline with resume := resume } hlayout

/-- Laying out an operation keeps the segments indexed. -/
theorem moves_indexed {location : Location} {layout next : Layout} {placed : PlacedOperation}
    (h : placed.Moves location layout next) (hindexed : Indexed layout) : Indexed next := by
  cases placed with
  | createSegment name start size fileOffset =>
    obtain ⟨hfree, -⟩ := addSegment_eq_ok.mp h
    refine ⟨?_, fun key outline hnext => ?_⟩
    · rw [keys_addSegment h, List.nodup_append]
      refine ⟨hindexed.distinct, by simp, fun key hkey other hother heq => ?_⟩
      obtain rfl := List.mem_singleton.mp hother
      exact Table.get?_eq_none_iff.mp hfree (heq ▸ hkey)
    · rw [outline?_addSegment h] at hnext
      split at hnext
      case isTrue hkey =>
        obtain rfl := Option.some.inj hnext
        exact hkey.symm
      case isFalse => exact hindexed.named key outline hnext
  | changeSegment name =>
    obtain ⟨segment, -, rfl⟩ := enter_eq_ok.mp h
    exact ⟨hindexed.distinct, hindexed.named⟩
  | setOrigin address =>
    obtain ⟨-, rfl⟩ := h
    exact ⟨hindexed.distinct, hindexed.named⟩
  | setWidth register wide =>
    obtain rfl := h
    cases register
    · exact ⟨hindexed.distinct, hindexed.named⟩
    · exact ⟨hindexed.distinct, hindexed.named⟩
  | flow step number =>
    obtain ⟨-, hnext⟩ := h
    rw [hnext]
    exact ⟨hindexed.distinct, hindexed.named⟩
  | _ =>
    refine hindexed.of_same (Alike.keys h) fun key outline hnext => ?_
    exact ⟨outline.resume, (Alike.outline h key).symm.trans hnext⟩

/-- Taking up the size of an operation keeps the segments indexed. -/
theorem occupy_indexed {layout next : Layout} {size : Nat} (h : layout.occupy size = .ok next)
    (hindexed : Indexed layout) : Indexed next := by
  obtain ⟨-, rfl⟩ | ⟨-, h⟩ := occupy_eq_ok.mp h
  · exact hindexed
  · obtain ⟨-, -, hkeys, houtline⟩ := advance_shared h
    refine hindexed.of_same hkeys fun key outline hnext => ?_
    rw [houtline key] at hnext
    split at hnext
    · obtain ⟨found, hfound, rfl⟩ := Option.map_eq_some_iff.mp hnext
      exact ⟨found.resume, hfound⟩
    · exact ⟨outline.resume, hnext⟩

end Layout

/-- The first walk keeps the segments indexed. -/
theorem FirstWalk.indexed {environment : Environment} {layout last : Layout} {tasks : List Task}
    {trace : List (Layout × Event)} (walk : FirstWalk environment layout tasks trace last)
    (h : layout.Indexed) : last.Indexed := by
  induction walk with
  | done layout => exact h
  | step advanced rest ih =>
    cases Task.advance_move advanced with
    | operation moves occupies =>
      exact ih (Layout.occupy_indexed occupies (Layout.moves_indexed moves h))
    | enter call location => exact ih h
    | leave location => exact ih h

/-- In the second walk the segments are indexed as the first one left them. -/
theorem Layout.Follows.indexed {final first second : Layout} (h : final.Follows first second)
    (hfinal : final.Indexed) : second.Indexed := by
  refine hfinal.of_same h.keys fun key outline hsecond => ?_
  rw [h.outline key] at hsecond
  obtain ⟨found, hfound, rfl⟩ := Option.map_eq_some_iff.mp hsecond
  exact ⟨found.resume, hfound⟩

/-- A program that is laid out has its segments under different names. -/
theorem layoutProgram_indexed {environment : Environment} {actions : List Action}
    {steps : List Step} {layout : Layout}
    (h : layoutProgram environment actions = .ok (steps, layout)) : layout.Indexed := by
  obtain ⟨-, trace, -, walk⟩ := layoutProgram_firstWalk h
  exact walk.indexed ⟨.nil, fun _ _ h => by cases h⟩

/-! ## The segments of an assembly -/

/-- An assembly ends with its segments under different names. -/
theorem AssemblyRun.indexed {search : AssetSearch} {main : SourceFile}
    (run : AssemblyRun search main) : run.emission.layout.Indexed := by
  obtain ⟨-, trace, htrace, walk⟩ := layoutProgram_firstWalk run.laidOut
  have hinitial : run.layout.Follows Layout.empty (Emission.initial run.layout).layout :=
    .initial run.layout
  have hsecond := run.emitted
  rw [← htrace] at hsecond
  exact (walk.follows_last hinitial hsecond).indexed (layoutProgram_indexed run.laidOut)

/-- What is handed out under a name is the code of a segment of that name. -/
theorem AssemblyRun.exists_segment {search : AssetSearch} {main : SourceFile}
    (run : AssemblyRun search main) {name : String} {code : SegmentCode}
    (h : (name, code) ∈ run.emission.segmentCode) :
    ∃ key segment, run.emission.layout.segments.get? key = some segment ∧
      name = lowerText segment.name ∧ code = segment.code := by
  obtain ⟨⟨key, segment⟩, hmem, heq⟩ := List.mem_map.mp (Table.mem_of_mem_ofList h)
  obtain ⟨rfl, rfl⟩ := Prod.mk.inj heq
  have hsegment := (List.mergeSort_perm _ _).mem_iff.mp hmem
  exact ⟨key, segment, Table.get?_of_mem run.indexed.distinct hsegment, rfl, rfl⟩

/-- No two segments with different names in ASCII are handed out under one name. -/
theorem Layout.Indexed.lowerNames_nodup {layout : Layout} (h : layout.Indexed)
    (hascii : ∀ entry ∈ layout.segments, IsAscii entry.2.name) :
    (layout.segments.map fun entry => lowerText entry.2.name).Nodup := by
  have hkeys : layout.segments.Pairwise fun first second => first.1 ≠ second.1 :=
    List.pairwise_map.mp h.distinct
  have hname (entry : String × Segment) (hentry : entry ∈ layout.segments) :
      entry.1 = upperText entry.2.name := by
    refine h.named entry.1 entry.2.outline ?_
    rw [outline?, Table.get?_of_mem h.distinct hentry, Option.map_some]
  refine List.pairwise_map.mpr (hkeys.imp_of_mem fun hfirst hsecond hne heq => hne ?_)
  rw [hname _ hfirst, hname _ hsecond]
  exact upperText_eq_of_lowerText_eq (hascii _ hfirst) (hascii _ hsecond) heq

/-- Every segment of the second walk is handed out under its name in lower case, and nothing else
is. -/
theorem Emission.mem_segmentCode {emission : Emission} (h : emission.layout.Indexed)
    (hascii : ∀ entry ∈ emission.layout.segments, IsAscii entry.2.name) {name : String}
    {code : SegmentCode} :
    emission.segmentCode.get? name = some code ↔
      ∃ key segment, emission.layout.segments.get? key = some segment ∧
        name = lowerText segment.name ∧ code = segment.code := by
  have hperm : emission.layout.orderedSegments.Perm emission.layout.segments :=
    List.mergeSort_perm _ _
  have hnodup : ((emission.layout.orderedSegments.map fun entry =>
      (lowerText entry.2.name, entry.2.code)).map Prod.fst).Nodup := by
    rw [List.map_map]
    exact (hperm.map _).nodup_iff.mpr (h.lowerNames_nodup hascii)
  have hcode : emission.segmentCode = emission.layout.orderedSegments.map fun entry =>
      (lowerText entry.2.name, entry.2.code) := Table.ofList_of_nodup hnodup
  rw [hcode]
  constructor
  · intro hfound
    obtain ⟨⟨key, segment⟩, hmem, heq⟩ := List.mem_map.mp (Table.mem_of_get? hfound)
    obtain ⟨rfl, rfl⟩ := Prod.mk.inj heq
    exact ⟨key, segment, Table.get?_of_mem h.distinct (hperm.mem_iff.mp hmem), rfl, rfl⟩
  · rintro ⟨key, segment, hsegment, rfl, rfl⟩
    refine Table.get?_of_mem hnodup (List.mem_map.mpr ⟨(key, segment), ?_, rfl⟩)
    exact hperm.mem_iff.mpr (Table.mem_of_get? hsegment)

end Asm65816
