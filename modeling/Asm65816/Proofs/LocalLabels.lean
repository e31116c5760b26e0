import Asm65816.Proofs.GlobalRequests

/-!
# Local labels of different segments

No request names a local label, so that one becomes global in one way only: it is declared in a
segment after `.GLOBALALL`, which makes no difference between labels. Where no other segment makes
all its labels global, a segment declares its labels, and finds its local ones, as if the others had
no local labels at all.
-/

namespace Asm65816

/-- Changing the values by their names changes what every name finds. -/
theorem Table.get?_mapKeyed {α : Type} (table : Table α) (change : String → α → α)
    (name : String) :
    Table.get? (table.map fun entry => (entry.1, change entry.1 entry.2)) name =
      (table.get? name).map (change name) := by
  induction table with
  | nil => rfl
  | cons entry rest ih =>
    obtain ⟨key, value⟩ := entry
    simp only [List.map_cons, get?, ih]
    split
    case isTrue hkey => rw [hkey, Option.map_some]
    case isFalse => rfl

/-! ## Which local labels are global -/

namespace Layout

/-- Whether a segment makes all its later labels global. -/
def publishesAll (layout : Layout) (key : String) : Bool :=
  (layout.segments.get? key).any Segment.globalAll

theorem publishesAll_definitions (layout : Layout) (key : String) :
    layout.definitions.publishesAll key = layout.publishesAll key := by
  rw [publishesAll, publishesAll, get?_definitions, Option.any_map]
  rfl

theorem publishesAll_setCurrent {layout : Layout} {key : String} {found : Segment}
    (h : layout.requireSegment = .ok (key, found)) (segment : Segment) (other : String) :
    (layout.setSegment key segment).publishesAll other =
      if key = other then segment.globalAll else layout.publishesAll other := by
  simp only [publishesAll, get?_setSegment]
  split
  case isTrue hkey =>
    rw [← hkey, (requireSegment_eq_ok.mp h).2]
    rfl
  case isFalse => rfl

/-- No local label is asked for, and one is global only in a segment that makes all its labels
global. -/
structure LocalsOwned (layout : Layout) : Prop where
  requests : ∀ entry ∈ layout.requests, isLocal entry.1 = false
  globals : ∀ entry ∈ layout.globals, isLocal entry.1 = true → layout.publishesAll entry.2 = true

namespace LocalsOwned

variable {environment : Environment} {layout next : Layout}

/-- Nothing is lost while segments go on publishing. -/
theorem of_publishes (h : layout.LocalsOwned) (hrequests : next.requests = layout.requests)
    (hglobals : next.globals = layout.globals)
    (hpublishes : ∀ key, layout.publishesAll key = true → next.publishesAll key = true) :
    next.LocalsOwned := by
  refine ⟨hrequests ▸ h.requests, fun entry hentry hlocal => hpublishes _ ?_⟩
  exact h.globals entry (hglobals ▸ hentry) hlocal

/-- A current segment that goes on publishing is replaced without loss. -/
theorem setCurrent (h : layout.LocalsOwned) {key : String} {found : Segment}
    (hcurrent : layout.requireSegment = .ok (key, found)) (segment : Segment)
    (hkeeps : found.globalAll = true → segment.globalAll = true) :
    (layout.setSegment key segment).LocalsOwned := by
  refine h.of_publishes rfl rfl fun other hother => ?_
  rw [publishesAll_setCurrent hcurrent]
  split
  case isTrue hkey =>
    rw [publishesAll, ← hkey, (requireSegment_eq_ok.mp hcurrent).2] at hother
    exact hkeeps hother
  case isFalse => exact hother

theorem declareLabel (h : layout.LocalsOwned) {location : Location} {name : String}
    (hdeclared : layout.declareLabel environment location name = .ok next) : next.LocalsOwned := by
  obtain ⟨key, segment, hcurrent, ⟨label, -, -, rfl⟩ | ⟨-, -, rfl⟩⟩ := declareLabel_cases hdeclared
  · exact h.setCurrent hcurrent (segment.redeclare _ _) id
  · have hset := h.setCurrent hcurrent
      (segment.declare (declaredName name) layout.address location) id
    rcases publish_cases (layout.setSegment key
      (segment.declare (declaredName name) layout.address location)) key (declaredName name)
      segment.globalAll with hsame | ⟨hasked, hput⟩
    · rw [hsame]
      exact hset
    · rw [hput]
      refine ⟨hset.requests, fun entry hentry hlocal => ?_⟩
      rcases Table.mem_of_mem_put hentry with hold | rfl
      · exact hset.globals entry hold hlocal
      · -- A request does not name a local label, so it is the segment that asks.
        rcases hasked with hall | hrequest
        · exact (publishesAll_setCurrent hcurrent _ key).trans ((if_pos rfl).trans hall)
        · have hglobal := hset.requests _ (Table.mem_of_get? hrequest)
          cases hglobal.symm.trans hlocal

/-- Whatever a task defines, local labels are global only where all labels are. -/
theorem defines (h : layout.LocalsOwned) {task : Task} {event : Event}
    (hdefines : TaskDefines environment layout next task event)
    (htask : ∀ calls operation location, task = .action calls (.operation operation location) →
      operation.KeepsLocal) : next.LocalsOwned := by
  cases hdefines with
  | segment calls name start size fileOffset location added =>
    obtain ⟨hnew, rfl⟩ := addSegment_eq_ok.mp added
    refine h.of_publishes rfl rfl fun key hkey => ?_
    have hother : upperText (Segment.new name start size fileOffset location).name ≠ key := by
      rintro rfl
      rw [publishesAll, hnew] at hkey
      cases hkey
    rw [publishesAll, Table.get?_put, if_neg hother]
    exact hkey
  | label calls name location declared => exact h.declareLabel declared
  | globalName calls name location published =>
    have hlocal : isLocal name = false := htask calls (.setGlobal name) location rfl
    obtain ⟨key, hsegments, hrequests, hglobals⟩ := setGlobal_cases published
    refine ⟨fun entry hentry => ?_, fun entry hentry hentryLocal => ?_⟩
    · rw [hrequests] at hentry
      rcases Table.mem_of_mem_put hentry with hold | rfl
      · exact h.requests entry hold
      · exact hlocal
    · rw [publishesAll, hsegments]
      rcases hglobals with hsame | ⟨-, hput⟩
      · exact h.globals entry (hsame ▸ hentry) hentryLocal
      · rw [hput] at hentry
        rcases Table.mem_of_mem_put hentry with hold | rfl
        · exact h.globals entry hold hentryLocal
        · cases hlocal.symm.trans hentryLocal
  | globalAll calls location published =>
    obtain ⟨key, segment, hcurrent, rfl⟩ := setGlobalAll_eq_ok published
    exact h.setCurrent hcurrent { segment with globalAll := true } fun _ => rfl
  | nothing task undeclared same =>
    have hrequests : next.definitions.requests = layout.definitions.requests := by rw [same]
    have hglobals : next.definitions.globals = layout.definitions.globals := by rw [same]
    refine h.of_publishes hrequests hglobals fun key hkey => ?_
    rwa [← publishesAll_definitions, same, publishesAll_definitions]

end LocalsOwned

end Layout

section Walking

variable {environment : Environment} {actions : List Action}

/-- No operation that the first walk comes to makes a local label global by its name. -/
theorem WalksTo.keepsLocal {layout : Layout} {calls : List MacroCall} {operation : Operation}
    {location : Location} {others : List Task}
    (walk : WalksTo environment Layout.empty (bodyTasks [] actions) layout
      (.action calls (.operation operation location) :: others))
    (hactions : KeepsLocal actions) (hmacros : ∀ name definition,
      environment.macros.get? name = some definition → KeepsLocal definition.body) :
    operation.KeepsLocal := by
  obtain ⟨site, -, hinside⟩ := walk.sited
  cases site with
  | program => exact hactions operation location hinside
  | body name operands round caller =>
    rw [Site.actions] at hinside
    cases hdefinition : environment.macros.get? name with
    | none =>
      rw [hdefinition] at hinside
      exact KeepsLocal.nil operation location hinside
    | some definition =>
      rw [hdefinition] at hinside
      exact hmacros name definition hdefinition operation location hinside

/-- In every state of the first walk local labels are global only where all labels are. -/
theorem WalksTo.localsOwned {layout : Layout} {others : List Task}
    (walk : WalksTo environment Layout.empty (bodyTasks [] actions) layout others)
    (hactions : KeepsLocal actions) (hmacros : ∀ name definition,
      environment.macros.get? name = some definition → KeepsLocal definition.body) :
    layout.LocalsOwned := by
  obtain ⟨trace, hthrough⟩ := walk.exists_history
  clear walk
  induction hthrough with
  | here => exact ⟨fun _ h => (by cases h), fun _ h => by cases h⟩
  | step before advanced ih =>
    refine ih.defines (Task.advance_defines advanced) fun calls operation location htask => ?_
    subst htask
    exact before.walksTo.keepsLocal hactions hmacros

end Walking

/-! ## A segment on its own -/

/-- The segment without its local labels. -/
def Segment.withoutLocals (segment : Segment) : Segment :=
  { segment with labels := segment.labels.filter fun entry => !isLocal entry.1 }

/-- The stem of a reference to a local label is local. -/
theorem isLocal_splitDirection {name : String} (h : isLocal name = true) :
    isLocal (splitDirection name).1 = true := by
  cases hname : name.toList with
  | nil => simp [isLocal, beginsWith, hname] at h
  | cons first rest =>
    obtain rfl : first = '@' := by simpa [isLocal, beginsWith, hname] using h
    unfold splitDirection
    rw [if_pos h]
    cases rest with
    | nil => simpa [hname] using h
    | cons second rest =>
      split
      · simp [isLocal, beginsWith, hname]
      · simp [isLocal, beginsWith, hname]
      · exact h

namespace Layout

/-- The layout in which no segment but the given one has local labels. -/
def alone (key : String) (layout : Layout) : Layout :=
  { layout with
    segments := layout.segments.map fun entry =>
      (entry.1, if entry.1 = key then entry.2 else entry.2.withoutLocals)
    globals := layout.globals.filter fun entry => !isLocal entry.1 || entry.2 == key }

variable {layout : Layout} {key : String}

theorem get?_alone (layout : Layout) (key : String) :
    (layout.alone key).segments.get? key = layout.segments.get? key := by
  have hget := Table.get?_mapKeyed layout.segments
    (fun other segment => if other = key then segment else segment.withoutLocals) key
  simp only [if_true, Option.map_id'] at hget
  exact hget

theorem setSegment_alone (layout : Layout) (key : String) (segment : Segment) :
    (layout.setSegment key segment).alone key = (layout.alone key).setSegment key segment := by
  have hset := Table.map_alter layout.segments key segment
    fun other segment => if other = key then segment else segment.withoutLocals
  simp only [if_true] at hset
  exact congrArg (fun segments => { layout.alone key with segments := segments }) hset

/-- A segment on its own keeps the global labels that there are, if no local one belongs to
another. -/
theorem globals_alone (h : ∀ entry ∈ layout.globals, isLocal entry.1 = true → entry.2 = key) :
    (layout.alone key).globals = layout.globals := by
  refine List.filter_eq_self.mpr fun entry hentry => ?_
  cases hlocal : isLocal entry.1 with
  | false => rfl
  | true => simpa using h entry hentry hlocal

theorem publish_alone (h : ∀ entry ∈ layout.globals, isLocal entry.1 = true → entry.2 = key)
    (name : String) (globalAll : Bool) :
    (layout.publish key name globalAll).alone key =
      (layout.alone key).publish key name globalAll := by
  have hput : Layout.globals (alone key { layout with globals := layout.globals.put name key }) =
      (layout.alone key).globals.put name key := by
    rw [globals_alone h]
    refine globals_alone fun entry hentry => ?_
    rcases Table.mem_of_mem_put hentry with hold | rfl
    · exact h entry hold
    · exact fun _ => rfl
  unfold publish
  change _ = if globalAll || layout.requests.get? name == some key then _ else _
  split
  · exact congrArg (fun globals => { layout.alone key with globals := globals }) hput
  · rfl

/-- Declaring a label does not depend on the local labels of other segments. -/
theorem declareLabel_alone (hcurrent : layout.current = some key)
    (h : ∀ entry ∈ layout.globals, isLocal entry.1 = true → entry.2 = key)
    (environment : Environment) (location : Location) (name : String) :
    (layout.alone key).declareLabel environment location name =
      (layout.declareLabel environment location name).map (alone key) := by
  have hrequire : (layout.alone key).requireSegment = layout.requireSegment := by
    simp only [requireSegment, show (layout.alone key).current = some key from hcurrent, hcurrent,
      get?_alone]
  unfold declareLabel
  rw [map_bind, hrequire]
  cases hfound : layout.requireSegment with
  | error fault => rfl
  | ok found =>
    obtain ⟨other, segment⟩ := found
    obtain rfl : key = other :=
      Option.some.inj (hcurrent.symm.trans (requireSegment_eq_ok.mp hfound).1)
    simp only [ok_bind, globals_alone h]
    generalize (if isLocal name = true then declaredStem name else name) = stem
    by_cases hagain : (isLocal name && (segment.label? stem).isSome) = true
    · rw [if_pos hagain, if_pos hagain]
      exact congrArg Except.ok (setSegment_alone layout key _).symm
    · rw [if_neg hagain, if_neg hagain]
      split
      · rfl
      · have hset : ∀ entry ∈ (layout.setSegment key
            (segment.declare stem layout.address location)).globals,
            isLocal entry.1 = true → entry.2 = key := h
        refine congrArg Except.ok ?_
        rw [publish_alone hset, setSegment_alone]
        rfl

/-- Finding a local label does not depend on the local labels of other segments. -/
theorem resolve_alone {segment : Segment} (hsegment : layout.segments.get? key = some segment)
    (h : ∀ entry ∈ layout.globals, isLocal entry.1 = true → entry.2 = key) {reference : Reference}
    (hlocal : isLocal reference.name = true) :
    (layout.alone key).resolve key segment reference = layout.resolve key segment reference := by
  have hstem := isLocal_splitDirection hlocal
  have hdeclaration : (layout.alone key).declaration? segment (splitDirection reference.name).1 =
      layout.declaration? segment (splitDirection reference.name).1 := by
    simp only [declaration?, globals_alone h]
    cases howner : layout.globals.get? (splitDirection reference.name).1 with
    | none => rfl
    | some owner =>
      obtain rfl : owner = key := h _ (Table.mem_of_get? howner) hstem
      simp only [Option.bind_eq_bind, Option.bind_some, get?_alone]
  simp only [resolve, hdeclaration]

end Layout

/-- Local labels are local to their segment wherever no other segment makes all its labels global.
In every state that laying out a program comes to, a local label is global only if it is declared
in a segment that makes all its labels global, and if no other segment does, then declaring a label
in a segment and finding a local label from there give what they would give if the other segments
had no local labels. -/
theorem local_labels_private {search : AssetSearch} {main : SourceFile} {lines : List Line}
    {program : Program} (hbuilt : buildProgram search main lines = .ok program) {layout : Layout}
    {tasks : List Task} (walk : WalksTo (program.environment search) Layout.empty
      (bodyTasks [] program.actions) layout tasks) :
    (∀ name owner, layout.globals.get? name = some owner → isLocal name = true →
      layout.publishesAll owner = true ∧ ∃ label, layout.label? owner name = some label) ∧
      ∀ key segment, layout.segments.get? key = some segment →
        (∀ other, other ≠ key → layout.publishesAll other = false) →
          (layout.current = some key → ∀ location name,
            (layout.alone key).declareLabel (program.environment search) location name =
              (layout.declareLabel (program.environment search) location name).map
                (Layout.alone key)) ∧
          ∀ reference, isLocal reference.name = true →
            (layout.alone key).resolve key segment reference =
              layout.resolve key segment reference := by
  obtain ⟨hactions, hmacros⟩ := buildProgram_keepsLocal hbuilt
  have howned : layout.LocalsOwned := walk.localsOwned hactions hmacros
  obtain ⟨trace, hthrough⟩ := walk.exists_history
  refine ⟨fun name owner hname hlocal => ⟨?_, ?_⟩, fun key segment hsegment hothers => ?_⟩
  · exact howned.globals (name, owner) (Table.mem_of_get? hname) hlocal
  · exact hthrough.namesConsistent.owned name owner hname
  · have hglobals : ∀ entry ∈ layout.globals, isLocal entry.1 = true → entry.2 = key := by
      intro entry hentry hlocal
      by_contra hother
      cases (howned.globals entry hentry hlocal).symm.trans (hothers entry.2 hother)
    exact ⟨fun hcurrent => Layout.declareLabel_alone hcurrent hglobals _,
      fun reference => Layout.resolve_alone hsegment hglobals⟩

/-- Two segments that both declare `@l` and refer to it. -/
theorem local_labels_private_twice :
    ∃ (main : SourceFile) (run : AssemblyRun ⟨.ofTable [], []⟩ main) (segment : Segment),
      main.text = " .segment \"c\",0x8000,9,0\n .segment \"d\",0x9000,9,9\n .c\n" ++
        "@l: bra @l\n .d\n@l: bra @l\n" ∧
      run.layout.segments.get? "D" = some segment ∧
      (run.layout.label? "C" "@l").isSome ∧ ((run.layout.alone "D").label? "C" "@l").isNone ∧
      ∀ reference, isLocal reference.name = true →
        (run.layout.alone "D").resolve "D" segment reference =
          run.layout.resolve "D" segment reference := by
  let main : SourceFile :=
    ⟨"m.s", " .segment \"c\",0x8000,9,0\n .segment \"d\",0x9000,9,9\n .c\n" ++
      "@l: bra @l\n .d\n@l: bra @l\n"⟩
  obtain ⟨run, hrun⟩ : ∃ run : AssemblyRun ⟨.ofTable [], []⟩ main,
      ((run.layout.segments.get? "D").isSome &&
        run.layout.segments.all (fun entry => !entry.2.globalAll) &&
        (run.layout.label? "C" "@l").isSome &&
        ((run.layout.alone "D").label? "C" "@l").isNone) = true :=
    AssemblyRun.exists_of_any _ (by decide +kernel)
  simp only [Bool.and_eq_true, List.all_eq_true, Bool.not_eq_true'] at hrun
  obtain ⟨⟨⟨hsegment, hglobal⟩, hdeclared⟩, hforgotten⟩ := hrun
  obtain ⟨segment, hsegment⟩ := Option.isSome_iff_exists.mp hsegment
  obtain ⟨-, trace, -, walk⟩ := layoutProgram_firstWalk run.laidOut
  have hothers : ∀ other, other ≠ "D" → run.layout.publishesAll other = false := by
    intro other _
    cases hfound : run.layout.segments.get? other with
    | none => rw [Layout.publishesAll, hfound, Option.any_none]
    | some found =>
      rw [Layout.publishesAll, hfound, Option.any_some]
      exact hglobal (other, found) (Table.mem_of_get? hfound)
  exact ⟨main, run, segment, rfl, hsegment, hdeclared, hforgotten,
    ((local_labels_private run.built walk.walksTo).2 "D" segment hsegment hothers).2⟩

/-- Local labels are not local to a segment after `.GLOBALALL`: the label `@l` of `C` is global, and
`D` cannot declare a label of that name, which it could without the local labels of `C`. -/
theorem local_label_shuts_others_out :
    ∃ (main : SourceFile) (run : AssemblyRun ⟨.ofTable [], []⟩ main),
      main.text = " .segment \"c\",0x8000,9,0\n .segment \"d\",0x9000,9,9\n .c\n .globalall\n" ++
        "@l: nop\n .d\n" ∧
      WalksTo (run.program.environment ⟨.ofTable [], []⟩) Layout.empty
        (bodyTasks [] run.program.actions) run.layout [] ∧
      run.layout.globals.get? "@l" = some "C" ∧ run.layout.current = some "D" ∧
      (run.layout.declareLabel (run.program.environment ⟨.ofTable [], []⟩) default "@l").isOk =
        false ∧
      ((run.layout.alone "D").declareLabel (run.program.environment ⟨.ofTable [], []⟩) default
        "@l").isOk = true := by
  let main : SourceFile :=
    ⟨"m.s", " .segment \"c\",0x8000,9,0\n .segment \"d\",0x9000,9,9\n .c\n .globalall\n" ++
      "@l: nop\n .d\n"⟩
  obtain ⟨run, hrun⟩ : ∃ run : AssemblyRun ⟨.ofTable [], []⟩ main,
      (run.layout.globals.get? "@l" == some "C" && run.layout.current == some "D" &&
        !(run.layout.declareLabel (run.program.environment ⟨.ofTable [], []⟩) default "@l").isOk &&
        ((run.layout.alone "D").declareLabel (run.program.environment ⟨.ofTable [], []⟩) default
          "@l").isOk) = true :=
    AssemblyRun.exists_of_any _ (by decide +kernel)
  simp only [Bool.and_eq_true, beq_iff_eq, Bool.not_eq_true'] at hrun
  obtain ⟨⟨⟨hglobal, hcurrent⟩, hrefused⟩, haccepted⟩ := hrun
  obtain ⟨-, trace, -, walk⟩ := layoutProgram_firstWalk run.laidOut
  exact ⟨main, run, rfl, walk.walksTo, hglobal, hcurrent, hrefused, haccepted⟩

end Asm65816
