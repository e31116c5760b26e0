import Asm65816.Proofs.OpenNames
import Asm65816.Proofs.Reached
import Asm65816.Proofs.SegmentNames

/-!
# Labels are found where they are used

The first walk records every name that an operand leaves open, in the current segment and at the
current address, and no later step drops a record. All records are resolved between the walks, so
that the second walk, which is at the same place when it evaluates the operand, finds each name.
What it finds is the declaration that the reference means: one of the current segment, or else the
global one. Only reserved names are not recorded, and only they can be undefined in the end.
-/

namespace Asm65816

namespace Layout

/-- A use of `ident` at `address` is recorded in the segment found under `key`. -/
def Refers (layout : Layout) (key ident : String) (address : Int) : Prop :=
  ∃ segment, layout.segments.get? key = some segment ∧
    ∃ reference ∈ segment.references, reference.name = ident ∧ reference.address = address

/-- Every use that is recorded in one layout is recorded in the other. -/
def Keeps (layout next : Layout) : Prop :=
  ∀ key ident address, layout.Refers key ident address → next.Refers key ident address

/-- The open names of an operand that are not reserved are recorded at the place of a layout. -/
def RefersTo (layout place : Layout) (operand : Expr) : Prop :=
  ∀ name ∈ operand.openNames, isReserved name.ident = false →
    ∃ key, place.current = some key ∧ layout.Refers key name.ident place.address

/-! ## No record is dropped -/

/-- Records are handed on. -/
theorem Keeps.trans {first second third : Layout} (h : first.Keeps second)
    (h' : second.Keeps third) : first.Keeps third :=
  fun key ident address hrefers => h' key ident address (h key ident address hrefers)

/-- Layouts with the same segments have the same records. -/
theorem Keeps.of_segments {layout next : Layout} (h : next.segments = layout.segments) :
    layout.Keeps next := by
  rintro key ident address ⟨segment, hsegment, hreference⟩
  exact ⟨segment, h ▸ hsegment, hreference⟩

/-- A segment that replaces the current one is found in its place. -/
theorem get?_setCurrent {layout : Layout} {key : String} {found : Segment}
    (h : layout.requireSegment = .ok (key, found)) (segment : Segment) :
    (layout.setSegment key segment).segments.get? key = some segment := by
  rw [get?_setSegment, if_pos rfl, (requireSegment_eq_ok.mp h).2, Option.map_some]

/-- A current segment that keeps its references is replaced without loss. -/
theorem Keeps.setCurrent {layout : Layout} {key : String} {segment found : Segment}
    (h : layout.requireSegment = .ok (key, found))
    (hkeeps : found.references ⊆ segment.references) :
    layout.Keeps (layout.setSegment key segment) := by
  obtain ⟨-, hfound⟩ := requireSegment_eq_ok.mp h
  rintro other ident address ⟨old, hold, reference, hreference, hsame⟩
  by_cases hkey : key = other
  · subst hkey
    obtain rfl := Option.some.inj (hfound.symm.trans hold)
    exact ⟨segment, get?_setCurrent h segment, reference, hkeeps hreference, hsame⟩
  · refine ⟨old, ?_, reference, hreference, hsame⟩
    rw [get?_setSegment, if_neg hkey, hold]

/-- More records do no harm. -/
theorem RefersTo.mono {layout next place : Layout} {operand : Expr}
    (h : layout.RefersTo place operand) (hkeeps : layout.Keeps next) :
    next.RefersTo place operand := by
  intro name hname hreserved
  obtain ⟨key, hcurrent, hrefers⟩ := h name hname hreserved
  exact ⟨key, hcurrent, hkeeps _ _ _ hrefers⟩

/-- Only the cursor of a place counts. -/
theorem RefersTo.of_cursor {layout place other : Layout} {operand : Expr}
    (h : layout.RefersTo place operand) (hcursor : other.cursor = place.cursor) :
    layout.RefersTo other operand := by
  have hcurrent : other.current = place.current := congrArg Cursor.current hcursor
  have haddress : other.address = place.address := congrArg Cursor.address hcursor
  intro name hname hreserved
  rw [hcurrent, haddress]
  exact h name hname hreserved

/-- Adding a segment drops no record. -/
theorem addSegment_keeps {layout next : Layout} {segment : Segment}
    (h : layout.addSegment segment = .ok next) : layout.Keeps next := by
  obtain ⟨hfree, rfl⟩ := addSegment_eq_ok.mp h
  rintro key ident address ⟨old, hold, hreference⟩
  refine ⟨old, ?_, hreference⟩
  have hother : upperText segment.name ≠ key := by
    rintro rfl
    rw [hfree] at hold
    cases hold
  simp only [Table.get?_put, if_neg hother, hold]

/-- Recording names drops no record and records the names of the operand. -/
theorem refer_refersTo {layout next : Layout} {location : Location} {operand : Expr}
    (h : layout.refer location operand = .ok next) :
    layout.Keeps next ∧ next.RefersTo layout operand := by
  obtain ⟨key, segment, hcurrent, rfl⟩ := refer_eq_ok h
  refine ⟨.setCurrent hcurrent (List.subset_append_left _ _), ?_⟩
  intro name hname hreserved
  refine ⟨key, (requireSegment_eq_ok.mp hcurrent).1, _, get?_setCurrent hcurrent _,
    ⟨name.ident, layout.address, location⟩, ?_, rfl, rfl⟩
  refine List.mem_append_right _ (List.mem_map.mpr ⟨name.ident, ?_, rfl⟩)
  exact List.mem_filter.mpr ⟨Expr.ident_mem_openIdents hname, by simp [hreserved]⟩

/-- Moving on drops no record. -/
theorem occupy_keeps {layout next : Layout} {size : Nat} (h : layout.occupy size = .ok next) :
    layout.Keeps next := by
  obtain ⟨-, rfl⟩ | ⟨-, h⟩ := occupy_eq_ok.mp h
  · exact .of_segments rfl
  · obtain ⟨key, segment, hcurrent, -, rfl⟩ := advance_eq_ok.mp h
    have hset : layout.Keeps
        (layout.setSegment key { segment with resume := layout.address + size }) :=
      .setCurrent hcurrent (List.Subset.refl _)
    exact hset.trans (.of_segments rfl)

end Layout

/-! ## What laying out an operation records -/

section Placing

variable {environment : Environment} {calls : List MacroCall} {location : Location}

/-- Preparing an operand records the names that it leaves open. -/
theorem resolveOperand_refersTo {layout next : Layout} {operand bound : Expr}
    (h : resolveOperand environment calls location layout operand = .ok (bound, next)) :
    layout.Keeps next ∧ next.RefersTo layout bound := by
  simp only [resolveOperand, bind_eq_ok, pure_eq_ok, Prod.mk.injEq] at h
  obtain ⟨argued, -, _, -, _, hrefer, rfl, rfl⟩ := h
  exact Layout.refer_refersTo hrefer

/-- Preparing operands records the names that each of them leaves open. -/
theorem resolveOperands_refersTo {operands bound : List Expr} {layout next : Layout}
    (h : resolveOperands environment calls location operands layout = .ok (bound, next)) :
    layout.Keeps next ∧ ∀ operand ∈ bound, next.RefersTo layout operand := by
  induction operands generalizing layout bound with
  | nil =>
    cases h
    exact ⟨.of_segments rfl, by simp⟩
  | cons operand rest ih =>
    simp only [resolveOperands, bind_eq_ok, pure_eq_ok] at h
    obtain ⟨⟨first, mid⟩, hfirst, ⟨others, reached⟩, hothers, hresult⟩ := h
    cases hresult
    obtain ⟨hkeeps, hrefers⟩ := resolveOperand_refersTo hfirst
    obtain ⟨hkeeps', hrefers'⟩ := ih hothers
    have hcursor := (resolveOperand_alike hfirst).1.cursor
    refine ⟨hkeeps.trans hkeeps', fun found hfound => ?_⟩
    rcases List.mem_cons.mp hfound with rfl | hrest
    · exact hrefers.mono hkeeps'
    · exact (hrefers' found hrest).of_cursor hcursor.symm

/-- One item of data records the names that it leaves open. -/
theorem placeDatum_refersTo {width : DataWidth} {operand bound : Expr} {size : Nat}
    {layout next : Layout}
    (h : placeDatum environment calls location width layout operand = .ok (bound, size, next)) :
    layout.Keeps next ∧ next.RefersTo layout bound ∧ next.cursor = layout.cursor := by
  cases operand with
  | text content petscii =>
    obtain ⟨-, h⟩ := demand_eq_ok.mp h
    cases h
    refine ⟨.of_segments rfl, fun name hname => ?_, rfl⟩
    simp [Expr.openNames] at hname
  | _ =>
    simp only [placeDatum, bind_eq_ok, pure_eq_ok] at h
    obtain ⟨⟨resolved, found⟩, hresolved, h⟩ := h
    cases h
    obtain ⟨hkeeps, hrefers⟩ := resolveOperand_refersTo hresolved
    exact ⟨hkeeps, hrefers, (resolveOperand_alike hresolved).1.cursor⟩

/-- Data records the names that its items leave open. -/
theorem placeData_refersTo {width : DataWidth} {operands bound : List Expr} {size : Nat}
    {layout next : Layout}
    (h : placeData environment calls location width operands layout = .ok (bound, size, next)) :
    layout.Keeps next ∧ ∀ operand ∈ bound, next.RefersTo layout operand := by
  induction operands generalizing layout bound size with
  | nil =>
    cases h
    exact ⟨.of_segments rfl, by simp⟩
  | cons operand rest ih =>
    simp only [placeData, bind_eq_ok, pure_eq_ok] at h
    obtain ⟨⟨first, count, mid⟩, hfirst, ⟨others, more, reached⟩, hothers, hresult⟩ := h
    cases hresult
    obtain ⟨hkeeps, hrefers, hcursor⟩ := placeDatum_refersTo hfirst
    obtain ⟨hkeeps', hrefers'⟩ := ih hothers
    refine ⟨hkeeps.trans hkeeps', fun found hfound => ?_⟩
    rcases List.mem_cons.mp hfound with rfl | hrest
    · exact hrefers.mono hkeeps'
    · exact (hrefers' found hrest).of_cursor hcursor.symm

/-- Laying out an operation drops no record, and records the open names of every operand that the
bytes of the operation need. -/
theorem placeOperation_refersTo {layout next : Layout} {operation : Operation}
    {placed : PlacedOperation} {size : Nat}
    (h : placeOperation environment calls location layout operation = .ok (placed, size, next)) :
    layout.Keeps next ∧ ∀ operand ∈ placed.evaluated, next.RefersTo layout operand := by
  have hnone : ∀ operand ∈ ([] : List Expr), next.RefersTo layout operand := by simp
  unfold placeOperation at h
  cases operation with
  | createSegment name start size fileOffset =>
    obtain ⟨added, hadded, h⟩ := bind_eq_ok.mp h
    cases h
    exact ⟨Layout.addSegment_keeps hadded, hnone⟩
  | changeSegment name =>
    obtain ⟨entered, hentered, h⟩ := bind_eq_ok.mp h
    cases h
    obtain ⟨segment, -, rfl⟩ := Layout.enter_eq_ok.mp hentered
    exact ⟨.of_segments rfl, hnone⟩
  | setOrigin operand =>
    obtain ⟨found, -, h⟩ := bind_eq_ok.mp h
    obtain ⟨origin, -, h⟩ := bind_eq_ok.mp h
    cases h
    exact ⟨.of_segments rfl, hnone⟩
  | setWidth register wide =>
    cases h
    refine ⟨.of_segments ?_, hnone⟩
    cases register
    · rfl
    · rfl
  | declareLabel name =>
    obtain ⟨declared, hdeclared, h⟩ := bind_eq_ok.mp h
    cases h
    obtain ⟨key, segment, labels, globals, hcurrent, rfl⟩ := Layout.declareLabel_eq_ok hdeclared
    have hset : layout.Keeps (layout.setSegment key { segment with labels := labels }) :=
      .setCurrent hcurrent (List.Subset.refl _)
    exact ⟨hset.trans (.of_segments rfl), hnone⟩
  | instruction mnemonic operands =>
    obtain ⟨-, h⟩ := refuse_eq_ok.mp h
    obtain ⟨⟨bound, resolved⟩, hresolved, h⟩ := bind_eq_ok.mp h
    obtain ⟨opcode, -, h⟩ := bind_eq_ok.mp h
    cases h
    obtain ⟨hkeeps, hrefers⟩ := resolveOperands_refersTo hresolved
    refine ⟨hkeeps, fun part hpart => ?_⟩
    obtain ⟨operand, hoperand, rfl⟩ := List.mem_map.mp hpart
    exact fun name hname => hrefers operand hoperand name (Expr.openNames_valuePart hname)
  | data width operands =>
    obtain ⟨⟨bound, count, resolved⟩, hresolved, h⟩ := bind_eq_ok.mp h
    cases h
    exact placeData_refersTo hresolved
  | fill wide count value =>
    obtain ⟨⟨boundCount, mid⟩, hcount, h⟩ := bind_eq_ok.mp h
    obtain ⟨⟨boundValue, resolved⟩, hvalue, h⟩ := bind_eq_ok.mp h
    obtain ⟨number, -, h⟩ := bind_eq_ok.mp h
    cases h
    obtain ⟨hkeeps, -⟩ := resolveOperand_refersTo hcount
    obtain ⟨hkeeps', hrefers⟩ := resolveOperand_refersTo hvalue
    refine ⟨hkeeps.trans hkeeps', fun operand hoperand => ?_⟩
    obtain rfl := List.mem_singleton.mp hoperand
    exact hrefers.of_cursor (resolveOperand_alike hcount).1.cursor.symm
  | includeBinary path =>
    obtain ⟨found, -, h⟩ := bind_eq_ok.mp h
    obtain ⟨asset, -, h⟩ := bind_eq_ok.mp h
    cases h
    exact ⟨.of_segments rfl, hnone⟩
  | includeSource path =>
    cases h
    exact ⟨.of_segments rfl, hnone⟩
  | setGlobal name =>
    obtain ⟨published, hpublished, h⟩ := bind_eq_ok.mp h
    cases h
    obtain ⟨requests, globals, rfl⟩ := Layout.setGlobal_eq_ok hpublished
    exact ⟨.of_segments rfl, hnone⟩
  | setGlobalAll =>
    obtain ⟨published, hpublished, h⟩ := bind_eq_ok.mp h
    cases h
    obtain ⟨key, segment, hcurrent, rfl⟩ := Layout.setGlobalAll_eq_ok hpublished
    exact ⟨.setCurrent hcurrent (List.Subset.refl _), hnone⟩
  | flow statement =>
    obtain ⟨⟨step, number, count, moved⟩, hmoved, h⟩ := bind_eq_ok.mp h
    cases h
    obtain ⟨-, -, hnext⟩ := placeFlow_move hmoved
    refine ⟨.of_segments (by rw [hnext]), fun operand hoperand name hname => ?_⟩
    cases step with
    | caseStart value follows wide =>
      -- The value of a case is known when it is laid out, so that no name is open in it.
      obtain rfl := List.mem_singleton.mp hoperand
      obtain ⟨written, found, register, -, hvalue, -⟩ := placeFlow_caseStart hmoved
      obtain ⟨-, -, -, hclosed⟩ := caseValue_eq_ok hvalue
      rw [Expr.openNames_eq_nil_of_closedValue hclosed] at hname
      cases hname
    | _ => cases hoperand

end Placing

/-- A task drops no record. -/
theorem Task.advance_keeps {environment : Environment} {task : Task} {layout next : Layout}
    {event : Event} {more : List Task}
    (h : task.advance environment layout = .ok (event, next, more)) : layout.Keeps next := by
  cases Task.advance_move h with
  | operation moves occupies =>
    obtain ⟨calls, operation, mid, -, hplaced, hoccupied, -⟩ := Task.advance_operation h
    exact (placeOperation_refersTo hplaced).1.trans (Layout.occupy_keeps hoccupied)
  | enter call location => exact .of_segments rfl
  | leave location => exact .of_segments rfl

/-- The first walk drops no record. -/
theorem FirstWalk.keeps {environment : Environment} {layout last : Layout} {tasks : List Task}
    {trace : List (Layout × Event)} (walk : FirstWalk environment layout tasks trace last) :
    layout.Keeps last := by
  induction walk with
  | done layout => exact .of_segments rfl
  | step advanced rest ih => exact (Task.advance_keeps advanced).trans ih

/-- When the second walk comes to an operation, the open names of its operands are recorded where
it is. -/
theorem Reached.refersTo {environment : Environment} {actions : List Action}
    {final second : Layout} {placed : PlacedOperation} {location : Location}
    (h : Reached environment actions final placed location second) {operand : Expr}
    (hoperand : operand ∈ placed.evaluated) : final.RefersTo second operand := by
  cases h with
  | intro walked laidOut occupied rest follows =>
    have hplaced := (placeOperation_refersTo laidOut).2 operand hoperand
    have hfinal := hplaced.mono ((Layout.occupy_keeps occupied).trans rest.keeps)
    exact hfinal.of_cursor follows.cursor

/-! ## What a record is resolved to -/

/-- The address that a use of `ident` at `address` in the segment found under `key` means: one of
the declarations of its stem in that segment, or else of the global label of that stem. -/
def Layout.selected? (layout : Layout) (key ident : String) (address : Int) : Option Int := do
  let segment ← layout.segments.get? key
  let label ← layout.declaration? segment (splitDirection ident).1
  resolveAddress label.addresses address (splitDirection ident).2

/-- The address that a use of `ident` at `address` in the segment found under `key` is resolved
to. -/
def labelAddress? (labels : List Resolution) (key ident : String) (address : Int) : Option Int :=
  (labels.find? fun entry =>
    entry.segment == key && entry.name == ident && entry.reference == address).map
      Resolution.address

/-- The number that a reference reads from the address of a label: all of it when it is a long
one, and else the offset in the bank. -/
def Name.reading (name : Name) (address : Int) : Number :=
  if name.long then .ofHex address (max (requiredBytes address) 3)
  else .ofHex (address % 65536) (requiredBytes (address % 65536))

/-- The labels seen from a place give a name what it reads from the address found there. -/
theorem labelScope_eq (labels : List Resolution) (key : String) (address : Int) (name : Name) :
    labelScope labels (some key) address name =
      (labelAddress? labels key name.ident address).map name.reading := by
  unfold labelScope labelAddress?
  rw [Option.bind_eq_bind, Option.bind_some]
  generalize labels.find? _ = found
  cases found with
  | none => rfl
  | some entry =>
    simp only [Option.bind_eq_bind, Option.bind_some, Option.map_some, Name.reading]
    split
    · rfl
    · rfl

/-- A reference is resolved to the declaration that it means. -/
theorem Layout.resolve_eq_ok {layout : Layout} {key : String} {segment : Segment}
    {reference : Reference} {entry : Resolution}
    (hsegment : layout.segments.get? key = some segment)
    (h : layout.resolve key segment reference = .ok entry) :
    entry.segment = key ∧ entry.name = reference.name ∧ entry.reference = reference.address ∧
      layout.selected? key reference.name reference.address = some entry.address := by
  unfold Layout.resolve at h
  dsimp only at h
  split at h
  case h_1 => cases h
  case h_2 label hlabel =>
    split at h
    case h_1 => cases h
    case h_2 address haddress =>
      cases h
      refine ⟨rfl, rfl, rfl, ?_⟩
      simp only [selected?, hsegment, Option.bind_eq_bind, Option.bind_some, hlabel, haddress]

/-- Every label that is resolved comes from a record. -/
theorem Layout.exists_reference {layout : Layout} {labels : List Resolution}
    (hkeys : layout.keys.Nodup) (h : layout.resolveAll = .ok labels) :
    ∀ entry ∈ labels, ∃ segment reference,
      layout.segments.get? entry.segment = some segment ∧ reference ∈ segment.references ∧
        layout.resolve entry.segment segment reference = .ok entry := by
  intro entry hentry
  simp only [resolveAll, bind_eq_ok, pure_eq_ok] at h
  obtain ⟨resolutions, hall, rfl⟩ := h
  obtain ⟨found, hfound, hmem⟩ := List.mem_flatten.mp hentry
  obtain ⟨⟨key, segment⟩, hsegment, hresolved⟩ := (mapM_eq_ok hall).2 found hfound
  obtain ⟨reference, hreference, hresolve⟩ := (mapM_eq_ok hresolved).2 entry hmem
  have hget := Table.get?_of_mem hkeys hsegment
  obtain ⟨rfl, -⟩ := resolve_eq_ok hget hresolve
  exact ⟨segment, reference, hget, hreference, hresolve⟩

/-- The labels are the resolutions of the records: every record is resolved, and whatever is
resolved is the declaration that is meant. -/
theorem Layout.resolveAll_eq_ok {layout : Layout} {labels : List Resolution}
    (hkeys : layout.keys.Nodup) (h : layout.resolveAll = .ok labels) :
    (∀ key ident address, layout.Refers key ident address →
      ∃ entry ∈ labels, entry.segment = key ∧ entry.name = ident ∧ entry.reference = address) ∧
    ∀ entry ∈ labels,
      layout.selected? entry.segment entry.name entry.reference = some entry.address := by
  constructor
  · simp only [resolveAll, bind_eq_ok, pure_eq_ok] at h
    obtain ⟨resolutions, hall, rfl⟩ := h
    rintro key ident address ⟨segment, hsegment, reference, hreference, rfl, rfl⟩
    obtain ⟨found, hfound, hresolved⟩ :=
      (mapM_eq_ok hall).1 (key, segment) (Table.mem_of_get? hsegment)
    obtain ⟨entry, hentry, hresolve⟩ := (mapM_eq_ok hresolved).1 reference hreference
    obtain ⟨hkey, hname, haddress, -⟩ := resolve_eq_ok hsegment hresolve
    exact ⟨entry, List.mem_flatten.mpr ⟨found, hfound, hentry⟩, hkey, hname, haddress⟩
  · intro entry hentry
    obtain ⟨segment, reference, hsegment, -, hresolve⟩ := exists_reference hkeys h entry hentry
    obtain ⟨-, hname, haddress, hselected⟩ := resolve_eq_ok hsegment hresolve
    rw [hname, haddress]
    exact hselected

/-- Whatever is found is the address that is meant. -/
theorem selected?_of_labelAddress? {layout : Layout} {labels : List Resolution}
    (hkeys : layout.keys.Nodup) (h : layout.resolveAll = .ok labels) {key ident : String}
    {address target : Int} (hfound : labelAddress? labels key ident address = some target) :
    layout.selected? key ident address = some target := by
  obtain ⟨entry, hentry, rfl⟩ := Option.map_eq_some_iff.mp hfound
  have hmatch := List.find?_some hentry
  simp only [Bool.and_eq_true, beq_iff_eq] at hmatch
  obtain ⟨⟨rfl, rfl⟩, rfl⟩ := hmatch
  exact (Layout.resolveAll_eq_ok hkeys h).2 entry (List.mem_of_find?_eq_some hentry)

/-- A use that is recorded is found, at the address that it means. -/
theorem labelAddress?_eq_selected {layout : Layout} {labels : List Resolution}
    (hkeys : layout.keys.Nodup) (h : layout.resolveAll = .ok labels) {key ident : String}
    {address : Int} (hrefers : layout.Refers key ident address) :
    ∃ target, labelAddress? labels key ident address = some target ∧
      layout.selected? key ident address = some target := by
  obtain ⟨entry, hentry, hkey, hname, haddress⟩ :=
    (Layout.resolveAll_eq_ok hkeys h).1 key ident address hrefers
  have hfinds : (labelAddress? labels key ident address).isSome := by
    rw [labelAddress?, Option.isSome_map, List.find?_isSome]
    exact ⟨entry, hentry, by simp [hkey, hname, haddress]⟩
  obtain ⟨target, hfound⟩ := Option.isSome_iff_exists.mp hfinds
  exact ⟨target, hfound, selected?_of_labelAddress? hkeys h hfound⟩

/-- When the second walk comes to an operation, every open name of its operands that is not
reserved has the address that it means. -/
theorem Reached.label_found {environment : Environment} {actions : List Action}
    {final second : Layout} {placed : PlacedOperation} {location : Location}
    {labels : List Resolution} (h : Reached environment actions final placed location second)
    (hkeys : final.keys.Nodup) (hlabels : final.resolveAll = .ok labels) {operand : Expr}
    (hoperand : operand ∈ placed.evaluated) {name : Name} (hname : name ∈ operand.openNames)
    (hreserved : isReserved name.ident = false) :
    ∃ key target, second.current = some key ∧
      final.selected? key name.ident second.address = some target ∧
      labelAddress? labels key name.ident second.address = some target ∧
      labelScope labels second.current second.address name = some (name.reading target) := by
  obtain ⟨key, hcurrent, hrefers⟩ := h.refersTo hoperand name hname hreserved
  obtain ⟨target, hfound, hselected⟩ := labelAddress?_eq_selected hkeys hlabels hrefers
  refine ⟨key, target, hcurrent, hselected, hfound, ?_⟩
  rw [hcurrent, labelScope_eq, hfound, Option.map_some]

/-- Placing bytes fails for want of a segment, of room in it or of a free address. -/
theorem Layout.place_eq_error {layout : Layout} {bytes : List UInt8} {fault : Fault}
    (h : layout.place bytes = .error fault) :
    fault = .missingSegment ∨ (∃ name, fault = .segmentOverflow name) ∨
      ∃ name address, fault = .byteOverlap name address := by
  by_cases hbytes : bytes = []
  · rw [hbytes, place_nil] at h
    cases h
  cases hcurrent : layout.requireSegment with
  | error cause =>
    unfold Layout.place at h
    rw [if_neg (by simpa using hbytes), hcurrent] at h
    cases h
    exact .inl (requireSegment_eq_error hcurrent)
  | ok found =>
    obtain ⟨key, segment⟩ := found
    rw [place_eq hbytes hcurrent] at h
    split at h
    · cases h
      exact .inr (.inr ⟨_, _, rfl⟩)
    · rcases advance_eq_error h with hmissing | hoverflow
      · exact .inl hmissing
      · exact .inr (.inl hoverflow)

/-- An operation leaves a label undefined only when an operand has an open name that is not known
at its place. -/
theorem Emission.operation_undefined {emission : Emission} {labels : List Resolution}
    {placed : PlacedOperation} {size : Nat} {ident : String}
    (h : emission.operation labels placed size = .error (.undefinedLabel ident)) :
    ∃ operand ∈ placed.evaluated, ∃ name ∈ operand.openNames, name.ident = ident ∧
      labelScope labels emission.layout.current emission.layout.address name = none := by
  rcases bind_eq_error.mp h with hemits | ⟨emitted, -, h⟩
  · rcases emitOperation_faults _ _ _ _ hemits with hencoding | hmisses
    · cases hencoding
    · cases hmisses with
      | @operand _ operand mem fails =>
        obtain ⟨cause, hcause, hfault⟩ := mapError_eq_error.mp fails
        cases cause with
        | unresolvedName found =>
          cases hfault
          exact ⟨operand, mem, Expr.exists_open_of_unresolved hcause⟩
        | _ => cases hfault
      | enter fails => cases Layout.enter_eq_error fails
      | origin fails => cases Layout.requireSegment_eq_error fails
      | caseValue reports fails => cases reports
      | flow control unserved => cases control
  · dsimp only at h
    split at h
    · cases h
    · rcases bind_eq_error.mp h with hplace | ⟨layout, -, h⟩
      · rcases Layout.place_eq_error hplace with hfault | ⟨_, hfault⟩ | ⟨_, _, hfault⟩
        all_goals cases hfault
      · cases h

/-- Looking up labels never misses. Whenever the second walk through a program that is laid out and
resolved comes to an operation, every name that is still open in one of the operands it evaluates
and is not reserved is found from the current segment and address: at the address of the declaration
that it means. A label that the second walk reports as undefined is therefore a reserved name. -/
theorem labelScope_total {environment : Environment} {actions : List Action} {steps : List Step}
    {layout : Layout} {labels : List Resolution}
    (hlayout : layoutProgram environment actions = .ok (steps, layout))
    (hlabels : layout.resolveAll = .ok labels) :
    (∀ before placed size location after emission,
      stepEvents steps = before ++ .operation placed size location :: after →
      emitEvents labels (Emission.initial layout) before = .ok emission →
      ∀ operand ∈ placed.evaluated, ∀ name ∈ operand.openNames, isReserved name.ident = false →
        ∃ key target, emission.layout.current = some key ∧
          layout.selected? key name.ident emission.layout.address = some target ∧
          labelAddress? labels key name.ident emission.layout.address = some target ∧
          labelScope labels emission.layout.current emission.layout.address name =
            some (name.reading target)) ∧
    ∀ failure ident, emitProgram layout labels steps = .error failure →
      failure.fault = .undefinedLabel ident → isReserved ident = true := by
  have hkeys : layout.keys.Nodup := (layoutProgram_indexed hlayout).distinct
  constructor
  · intro before placed size location after emission hevents hbefore operand hoperand name hname
      hreserved
    obtain ⟨-, hreached⟩ := layoutProgram_reached hlayout hevents hbefore
    exact hreached.label_found hkeys hlabels hoperand hname hreserved
  · intro failure ident hfailure hfault
    rw [emitProgram_eq_emitEvents, emitEvents_eq_error] at hfailure
    obtain ⟨before, placed, size, after, emission, hevents, hbefore, hfails⟩ := hfailure
    rw [hfault] at hfails
    obtain ⟨operand, hoperand, name, hname, rfl, hunknown⟩ :=
      Emission.operation_undefined hfails
    obtain ⟨-, hreached⟩ := layoutProgram_reached hlayout hevents hbefore
    -- Any other name is known, so that the one that is not has to be reserved.
    cases hreserved : isReserved name.ident with
    | true => rfl
    | false =>
      obtain ⟨key, target, -, -, -, hfound⟩ :=
        hreached.label_found hkeys hlabels hoperand hname hreserved
      rw [hunknown] at hfound
      cases hfound

/-- Whether a program is laid out and resolved is decided by doing both. -/
theorem exists_resolved {environment : Environment} {actions : List Action}
    (h : (layoutProgram environment actions >>= fun result => result.2.resolveAll).isOk = true) :
    ∃ result labels, layoutProgram environment actions = .ok result ∧
      result.2.resolveAll = .ok labels := by
  obtain ⟨labels, hlabels⟩ := exists_of_isOk h
  obtain ⟨result, hlayout, hlabels⟩ := bind_eq_ok.mp hlabels
  exact ⟨result, labels, hlayout, hlabels⟩

/-- A local label that is passed to a macro with a direction, and a global label of another
segment. -/
theorem labelScope_total_macroCall :
    ∃ result labels, layoutProgram
        ⟨[("GO", ⟨["goal"], false,
            [.operation (.instruction "BRA" [.name ⟨"goal", false⟩]) default]⟩)], [],
          ⟨.ofTable [], []⟩⟩
        [.operation (.createSegment "code" 0x8000 0x100 0) default,
          .operation (.createSegment "far" 0x18000 0x100 0x100) default,
          .operation (.changeSegment "far") default, .operation (.setGlobal "sound") default,
          .operation (.declareLabel "sound") default, .operation (.changeSegment "code") default,
          .operation (.declareLabel "@loop") default,
          .callMacro "GO" [.name ⟨"@loop-", false⟩] default,
          .operation (.declareLabel "@loop") default,
          .operation (.data .long [.name ⟨"sound", true⟩]) default] = .ok result ∧
      result.2.resolveAll = .ok labels ∧
      ∀ before placed size location after emission,
        stepEvents result.1 = before ++ .operation placed size location :: after →
        emitEvents labels (Emission.initial result.2) before = .ok emission →
        ∀ operand ∈ placed.evaluated, ∀ name ∈ operand.openNames, isReserved name.ident = false →
          ∃ key target, emission.layout.current = some key ∧
            result.2.selected? key name.ident emission.layout.address = some target ∧
            labelScope labels emission.layout.current emission.layout.address name =
              some (name.reading target) := by
  refine (exists_resolved ?_).imp fun result h => h.imp fun labels h => ⟨h.1, h.2, ?_⟩
  · decide +kernel
  · intro before placed size location after emission hevents hbefore operand hoperand name hname
      hreserved
    obtain ⟨key, target, hcurrent, hselected, -, hfound⟩ :=
      (labelScope_total h.1 h.2).1 before placed size location after emission hevents hbefore
        operand hoperand name hname hreserved
    exact ⟨key, target, hcurrent, hselected, hfound⟩

end Asm65816
