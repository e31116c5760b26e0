import Asm65816.Proofs.LabelLookup
import Asm65816.Proofs.LayoutReferences
import Asm65816.Proofs.WalkFaults

/-!
# Fewer references and the bytes of a program

When a program refers to fewer labels, those that are left are resolved to the same addresses. All
that the second walk evaluates was referred to, so that its operands keep their values. The program
emits the same bytes, as long as each of its operations does.
-/

namespace Asm65816

/-! ## Labels -/

namespace Layout

theorem keys_unreferred (layout : Layout) : layout.unreferred.keys = layout.keys :=
  List.map_map

theorem declaration?_unreferred (layout : Layout) (segment : Segment) (stem : String) :
    layout.unreferred.declaration? segment.unreferred stem = layout.declaration? segment stem := by
  have hglobals : layout.unreferred.globals = layout.globals := rfl
  have hlabel (owner : Segment) : owner.unreferred.label? stem = owner.label? stem := rfl
  simp only [declaration?, hglobals, hlabel, get?_unreferred]
  cases layout.globals.get? stem with
  | none => rfl
  | some key =>
    simp only [Option.bind_eq_bind, Option.bind_some]
    cases layout.segments.get? key <;> rfl

theorem resolve_unreferred (layout : Layout) (key : String) (segment : Segment)
    (reference : Reference) :
    layout.unreferred.resolve key segment.unreferred reference =
      layout.resolve key segment reference := by
  simp only [resolve, declaration?_unreferred]

theorem selected?_unreferred (layout : Layout) :
    layout.unreferred.selected? = layout.selected? := by
  funext key ident address
  simp only [selected?, get?_unreferred]
  cases layout.segments.get? key with
  | none => rfl
  | some segment =>
    simp only [Option.map_some, Option.bind_eq_bind, Option.bind_some, declaration?_unreferred]

namespace Sheds

variable {layout other : Layout}

theorem cursor (h : layout.Sheds other) : other.cursor = layout.cursor := by
  change other.unreferred.cursor = layout.unreferred.cursor
  rw [h.unreferred]

theorem flow (h : layout.Sheds other) : other.flow = layout.flow := by
  change other.unreferred.flow = layout.unreferred.flow
  rw [h.unreferred]

theorem keys (h : layout.Sheds other) : other.keys = layout.keys := by
  rw [← keys_unreferred, h.unreferred, keys_unreferred]

theorem selected?_eq (h : layout.Sheds other) : other.selected? = layout.selected? := by
  rw [← selected?_unreferred, h.unreferred, selected?_unreferred]

/-- What is left of the references of a segment, with the segment they were taken from. -/
theorem exists_segment (h : layout.Sheds other) {key : String} {segment : Segment}
    (hsegment : other.segments.get? key = some segment) :
    ∃ owner, layout.segments.get? key = some owner ∧ segment.unreferred = owner.unreferred ∧
      segment.references ⊆ owner.references := by
  have hview : (other.segments.get? key).map Segment.unreferred =
      (layout.segments.get? key).map Segment.unreferred := by
    rw [← get?_unreferred, ← get?_unreferred, h.unreferred]
  rw [hsegment, Option.map_some] at hview
  obtain ⟨owner, howner, hsame⟩ := Option.map_eq_some_iff.mp hview.symm
  have huses := h.uses key
  rw [Layout.uses, Layout.uses, hsegment, howner] at huses
  exact ⟨owner, howner, hsame.symm, huses⟩

/-- The labels that are still referred to are resolved. -/
theorem exists_labels (h : layout.Sheds other) (hkeys : layout.keys.Nodup)
    {labels : List Resolution} (hlabels : layout.resolveAll = .ok labels) :
    ∃ labels', other.resolveAll = .ok labels' := by
  simp only [resolveAll, bind_eq_ok, pure_eq_ok] at hlabels ⊢
  obtain ⟨resolutions, hall, -⟩ := hlabels
  have hkeys' : other.keys.Nodup := by rwa [h.keys]
  have hrest : ∀ entry ∈ other.segments, ∃ resolved,
      entry.2.references.mapM (other.resolve entry.1 entry.2) = .ok resolved := by
    rintro ⟨key, segment⟩ hentry
    have hsegment := Table.get?_of_mem hkeys' hentry
    obtain ⟨owner, howner, hsame, hreferences⟩ := h.exists_segment hsegment
    obtain ⟨resolved, -, hresolved⟩ := (mapM_eq_ok hall).1 (key, owner) (Table.mem_of_get? howner)
    refine exists_mapM_ok fun reference hreference => ?_
    obtain ⟨entry, -, hentry⟩ := (mapM_eq_ok hresolved).1 reference (hreferences hreference)
    refine ⟨entry, ?_⟩
    rwa [← resolve_unreferred, h.unreferred, hsame, resolve_unreferred]
  obtain ⟨resolutions', hall'⟩ := exists_mapM_ok hrest
  exact ⟨_, resolutions', hall', rfl⟩

/-- A label that is found is found again where it is still referred to. -/
theorem labelScope_eq_some (h : layout.Sheds other) (hkeys : layout.keys.Nodup)
    {labels labels' : List Resolution} (hlabels : layout.resolveAll = .ok labels)
    (hlabels' : other.resolveAll = .ok labels') {current : Option String} {address : Int}
    {name : Name} {number : Number}
    (hrefers : isReserved name.ident = false →
      ∃ key, current = some key ∧ other.Refers key name.ident address)
    (hfound : labelScope labels current address name = some number) :
    labelScope labels' current address name = some number := by
  obtain ⟨key, rfl⟩ : ∃ key, current = some key := by
    cases current with
    | none => cases hfound
    | some key => exact ⟨key, rfl⟩
  rw [labelScope_eq] at hfound ⊢
  obtain ⟨target, htarget, rfl⟩ := Option.map_eq_some_iff.mp hfound
  have hselected := selected?_of_labelAddress? hkeys hlabels htarget
  -- Only recorded names are found, and none of them is reserved.
  have hfree : isReserved name.ident = false := by
    obtain ⟨entry, hentry, -⟩ := Option.map_eq_some_iff.mp htarget
    have hmatch := List.find?_some hentry
    simp only [Bool.and_eq_true, beq_iff_eq] at hmatch
    obtain ⟨segment, reference, hsegment, hreference, hresolve⟩ :=
      exists_reference hkeys hlabels entry (List.mem_of_find?_eq_some hentry)
    obtain ⟨-, hname, -⟩ := resolve_eq_ok hsegment hresolve
    have huses : reference ∈ layout.uses entry.segment := by
      rw [Layout.uses, hsegment]
      exact hreference
    rw [← hmatch.1.2, hname]
    exact h.unreserved entry.segment reference huses
  obtain ⟨key', hkey, hrecorded⟩ := hrefers hfree
  obtain rfl := Option.some.inj hkey
  have hkeys' : other.keys.Nodup := by rwa [h.keys]
  obtain ⟨target', htarget', hselected'⟩ := labelAddress?_eq_selected hkeys' hlabels' hrecorded
  rw [h.selected?_eq, hselected] at hselected'
  obtain rfl := Option.some.inj hselected'
  rw [htarget', Option.map_some]

/-- An operand whose names are still referred to keeps its value. -/
theorem operandNumber_eq_ok (h : layout.Sheds other) (hkeys : layout.keys.Nodup)
    {labels labels' : List Resolution} (hlabels : layout.resolveAll = .ok labels)
    (hlabels' : other.resolveAll = .ok labels') {place : Layout} {operand : Expr} {number : Number}
    (hrefers : other.RefersTo place operand)
    (hvalue : operandNumber labels place operand = .ok number) :
    operandNumber labels' place operand = .ok number := by
  rw [operandNumber, mapError_eq_ok] at hvalue ⊢
  rw [← hvalue]
  refine Expr.collapse_congr fun name hname => ?_
  obtain ⟨found, hfound⟩ :=
    Option.isSome_iff_exists.mp (Expr.isSome_of_collapse hvalue name hname)
  rw [hfound]
  exact h.labelScope_eq_some hkeys hlabels hlabels' (hrefers name hname) hfound

end Sheds

/-! ## Bytes and references -/

variable (layout : Layout)

theorem rewind_unreferred : layout.unreferred.rewind = layout.rewind.unreferred := by
  simp only [rewind, unreferred, Table.mapValues, List.map_map]
  rfl

theorem place_unreferred (bytes : List UInt8) :
    layout.unreferred.place bytes = (layout.place bytes).map unreferred := by
  unfold place
  split
  · rfl
  · simp only [requireSegment_unreferred, bind_map, map_bind]
    refine bind_congr fun found => ?_
    have hwrite : found.2.unreferred.write layout.unreferred.address bytes =
        ((found.2.write layout.address bytes).1.unreferred,
          (found.2.write layout.address bytes).2) := rfl
    simp only [hwrite]
    obtain ⟨written, clash⟩ := found.2.write layout.address bytes
    cases clash with
    | some fault => rfl
    | none =>
      dsimp only
      rw [← advance_unreferred, unreferred_setSegment]

theorem orderedSegments_unreferred :
    layout.unreferred.orderedSegments = layout.orderedSegments.mapValues Segment.unreferred := by
  unfold orderedSegments Table.mapValues
  rw [List.map_mergeSort]
  · rfl
  · intro first _ second _
    rfl

end Layout

/-- What an operation does, at a layout without references. -/
def Emitted.unreferred (emitted : Emitted) : Emitted :=
  { emitted with layout := emitted.layout.unreferred }

/-- A state of the second walk without references. -/
def Emission.unreferred (emission : Emission) : Emission :=
  { emission with layout := emission.layout.unreferred }

section Emitting

variable (labels : List Resolution)

theorem emitOperation_unreferred (layout : Layout) (placed : PlacedOperation) :
    emitOperation labels layout.unreferred placed =
      (emitOperation labels layout placed).map Emitted.unreferred := by
  cases placed with
  | changeSegment name =>
    simp only [emitOperation, Layout.enter_unreferred, Layout.requireSegment_unreferred, bind_map,
      map_bind]
    rfl
  | setOrigin address =>
    simp only [emitOperation, Layout.requireSegment_unreferred, bind_map, map_bind]
    rfl
  | setWidth register wide => cases register <;> rfl
  | instruction | data | fill | flow =>
    simp only [emitOperation, map_bind]
    rfl
  | _ => rfl

theorem operation_unreferred (emission : Emission) (placed : PlacedOperation) (size : Nat) :
    emission.unreferred.operation labels placed size =
      (emission.operation labels placed size).map Emission.unreferred := by
  have hemits := emitOperation_unreferred labels emission.layout placed
  change (emitOperation labels emission.layout.unreferred placed >>= _) = _
  simp only [hemits, bind_map, Emission.operation, map_bind]
  refine bind_congr fun emitted => ?_
  change (if emitted.code.bytes.length ≠ size then _ else
    emitted.layout.unreferred.place emitted.code.bytes >>= _) = _
  split
  · rfl
  · simp only [Layout.place_unreferred, bind_map, map_bind]
    rfl

theorem event_unreferred (emission : Emission) (event : Event) :
    Emission.event labels emission.unreferred event =
      (Emission.event labels emission event).map Emission.unreferred := by
  cases event with
  | operation placed size location =>
    simp only [Emission.event, failingAt, operation_unreferred, map_mapError]
  | enter call location => cases call <;> rfl
  | leave location => rfl

theorem emitEvents_unreferred (emission : Emission) (events : List Event) :
    emitEvents labels emission.unreferred events =
      (emitEvents labels emission events).map Emission.unreferred := by
  induction events generalizing emission with
  | nil => rfl
  | cons event rest ih =>
    simp only [emitEvents, List.foldlM_cons, event_unreferred, bind_map, map_bind]
    exact bind_congr ih

/-- The code of segments does not depend on references. -/
theorem segmentCode_unreferred (emission : Emission) :
    emission.unreferred.segmentCode = emission.segmentCode := by
  rw [Emission.segmentCode, Emission.unreferred, Layout.orderedSegments_unreferred,
    Table.mapValues, List.map_map]
  rfl

end Emitting

/-! ## Other labels -/

section Values

variable {value value' : Expr → Except Fault Number}

/-- An instruction has the same bytes when its operands have the same values. -/
theorem Encoding.bytes_of_values {encoding : Encoding} {bytes : List UInt8}
    (hvalues : ∀ index number, encoding.operandValue value index = .ok number →
      encoding.operandValue value' index = .ok number)
    (h : encoding.bytes value = .ok bytes) : encoding.bytes value' = .ok bytes := by
  obtain ⟨behind, hbehind, h⟩ := bind_eq_ok.mp h
  refine bind_eq_ok.mpr ⟨behind, ?_, h⟩
  rw [operandBytes_eq_ok] at hbehind ⊢
  cases hbehind with
  | nothing mode => exact .nothing mode
  | signature mode => exact .signature mode
  | banks mode first second narrow =>
    exact .banks mode (hvalues 0 _ first) (hvalues 1 _ second) narrow
  | short mode found reached => exact .short mode (hvalues 0 _ found) reached
  | long mode found reached => exact .long mode (hvalues 0 _ found) reached
  | operand mode found room => exact .operand mode (hvalues 0 _ found) room

/-- An item of data is the same when it has the same value. -/
theorem datumCode_of_value {width : DataWidth} {operand : Expr}
    (hvalue : ∀ number, value operand = .ok number → value' operand = .ok number) {address : Int}
    {code : Code} (h : datumCode width value address operand = .ok code) :
    datumCode width value' address operand = .ok code := by
  cases operand with
  | text content petscii => exact h
  | _ =>
    simp only [datumCode, bind_eq_ok] at h ⊢
    obtain ⟨number, hnumber, h⟩ := h
    exact ⟨number, hvalue number hnumber, h⟩

/-- Data is the same when each of its items is. -/
theorem dataCode_of_forall₂ {width : DataWidth} {operands operands' : List Expr}
    (hitems : List.Forall₂ (fun operand operand' => ∀ address code,
      datumCode width value address operand = .ok code →
        datumCode width value' address operand' = .ok code) operands operands')
    {address : Int} {code : Code} (h : dataCode width value address operands = .ok code) :
    dataCode width value' address operands' = .ok code := by
  induction hitems generalizing address code with
  | nil => exact h
  | cons hfirst _ ih =>
    simp only [dataCode, bind_eq_ok] at h ⊢
    obtain ⟨first, hcode, others, hothers, h⟩ := h
    exact ⟨first, hfirst _ _ hcode, others, ih hothers, h⟩

end Values

section Relabelling

variable {labels labels' : List Resolution}

/-- An operation emits the same with other labels that give its operands the same values. -/
theorem emitOperation_of_values {layout : Layout} {placed : PlacedOperation} {emitted : Emitted}
    (hvalues : ∀ operand ∈ placed.evaluated, ∀ number,
      operandNumber labels layout operand = .ok number →
        operandNumber labels' layout operand = .ok number)
    (h : emitOperation labels layout placed = .ok emitted) :
    emitOperation labels' layout placed = .ok emitted := by
  cases placed with
  | instruction encoding =>
    obtain ⟨bytes, hbytes, h⟩ := bind_eq_ok.mp h
    refine bind_eq_ok.mpr ⟨bytes, Encoding.bytes_of_values (fun index number hnumber => ?_) hbytes,
      h⟩
    unfold Encoding.operandValue at hnumber ⊢
    split at hnumber
    case h_1 operand hoperand =>
      have hmem : operand.valuePart ∈ encoding.operands.map Expr.valuePart :=
        List.mem_map_of_mem (List.mem_of_getElem? hoperand)
      exact hvalues _ hmem number hnumber
    case h_2 => exact hnumber
  | data width operands =>
    obtain ⟨code, hcode, h⟩ := bind_eq_ok.mp h
    refine bind_eq_ok.mpr ⟨code, dataCode_of_forall₂ ?_ hcode, h⟩
    refine List.forall₂_same.mpr fun operand hoperand address code => ?_
    exact datumCode_of_value (hvalues operand hoperand)
  | fill wide count operand =>
    obtain ⟨number, hnumber, h⟩ := bind_eq_ok.mp h
    exact bind_eq_ok.mpr ⟨number, hvalues operand List.mem_cons_self number hnumber, h⟩
  | _ => exact h

end Relabelling

/-! ## Whole walks -/

/-- Whether the second walk does the same for two events, where it comes to the layout `found` of a
first walk that ended with the layout `final`. -/
def Layout.EmitsLike (final found : Layout) (event event' : Event) : Prop :=
  ∀ labels emission next, final.resolveAll = .ok labels → emission.layout.cursor = found.cursor →
    Emission.event labels emission event = .ok next →
      Emission.event labels emission event' = .ok next

theorem Layout.EmitsLike.refl (final found : Layout) (event : Event) :
    final.EmitsLike found event event := fun _ _ _ _ _ h => h

section Walks

variable {environment environment' : Environment} {final final' : Layout}
  {labels labels' : List Resolution} (hsheds : final.Sheds final') (hkeys : final.keys.Nodup)
  (hlabels : final.resolveAll = .ok labels) (hlabels' : final'.resolveAll = .ok labels')

include hsheds hkeys hlabels hlabels'

/-- An event of a walk that refers to fewer labels is taken with these labels as with all. -/
theorem Task.event_of_sheds {task : Task} {found next : Layout} {event : Event} {more : List Task}
    {emission last : Emission} (advanced : task.advance environment found = .ok (event, next, more))
    (hkeeps : next.Keeps final') (hcursor : emission.layout.cursor = found.cursor)
    (h : Emission.event labels emission event = .ok last) :
    Emission.event labels' emission event = .ok last := by
  cases event with
  | enter call location => exact h
  | leave location => exact h
  | operation placed size location =>
    obtain ⟨calls, operation, mid, -, hplaced, hoccupied, -⟩ := Task.advance_operation advanced
    have hrefers := (placeOperation_refersTo hplaced).2
    obtain ⟨emitted, hemits, hsize, hrest⟩ := operation_eq_ok.mp (failingAt_eq_ok.mp h)
    refine failingAt_eq_ok.mpr (operation_eq_ok.mpr ⟨emitted, ?_, hsize, hrest⟩)
    refine emitOperation_of_values (fun operand hoperand number hnumber => ?_) hemits
    have hrecorded : final'.RefersTo emission.layout operand :=
      ((hrefers operand hoperand).mono ((Layout.occupy_keeps hoccupied).trans hkeeps)).of_cursor
        hcursor
    exact hsheds.operandNumber_eq_ok hkeys hlabels hlabels' hrecorded hnumber

/-- Events that are alike one by one are alike one after the other. -/
theorem FirstWalk.emitEvents_of_sheds {first first' : Layout} {tasks tasks' : List Task}
    {trace trace' : List (Layout × Event)} {emission last : Emission}
    (walk : FirstWalk environment first tasks trace final)
    (walk' : FirstWalk environment' first' tasks' trace' final')
    (htrace : List.Forall₂ (fun entry entry' =>
      entry.1.Sheds entry'.1 ∧ final.EmitsLike entry.1 entry.2 entry'.2) trace trace')
    (hfollows : final.Follows first emission.layout)
    (h : emitEvents labels emission (trace.map Prod.snd) = .ok last) :
    emitEvents labels' emission (trace'.map Prod.snd) = .ok last := by
  induction walk generalizing first' tasks' trace' emission with
  | done layout =>
    cases htrace
    exact h
  | step advanced rest ih =>
    cases htrace with
    | cons hentry hlater =>
      cases walk' with
      | step advanced' rest' =>
        obtain ⟨hfound, hlike⟩ := hentry
        simp only [List.map_cons, emitEvents, List.foldlM_cons, bind_eq_ok] at h ⊢
        obtain ⟨next, hnext, h⟩ := h
        have hnext' := hlike labels emission next hlabels hfollows.cursor hnext
        have hcursor := hfollows.cursor.trans hfound.cursor.symm
        refine ⟨next, Task.event_of_sheds hsheds hkeys hlabels hlabels' advanced' rest'.keeps
          hcursor hnext', ?_⟩
        exact ih hsheds hkeys hlabels rest' hlater
          (((Task.advance_move advanced).follows labels rest.within hfollows).2 next hnext) h

end Walks

/-- A program emits the same segments as another when the first walk through it refers to fewer
labels, and comes to events that are emitted alike. -/
theorem Program.emit_of_sheds {program other : Program} {search search' : AssetSearch}
    {emission : Emission} (hemit : program.emit search true = .ok emission)
    (hwalk : ∀ {trace : List (Layout × Event)} {layout : Layout},
      FirstWalk (program.environment search) Layout.empty (bodyTasks [] program.actions) trace
        layout →
      ∃ trace' layout', FirstWalk (other.environment search') Layout.empty
          (bodyTasks [] other.actions) trace' layout' ∧
        layout.Sheds layout' ∧
        List.Forall₂ (fun entry entry' =>
          entry.1.Sheds entry'.1 ∧ layout.EmitsLike entry.1 entry.2 entry'.2) trace trace') :
    ∃ emission', other.emit search' true = .ok emission' ∧
      emission'.segmentCode = emission.segmentCode := by
  obtain ⟨trace, layout, labels, walk, hclosed, hlabels, hemitted⟩ := Program.emit_eq_ok.mp hemit
  obtain ⟨trace', layout', walk', hsheds, htrace⟩ := hwalk walk
  have hkeys : layout.keys.Nodup := (walk.indexed ⟨.nil, fun _ _ h => by cases h⟩).distinct
  obtain ⟨labels', hlabels'⟩ := hsheds.exists_labels hkeys hlabels
  have hclosed' : layout'.flow.innermost? = none := by rw [hsheds.flow, hclosed]
  have hfollows : layout.Follows Layout.empty (Emission.initial layout).layout := .initial layout
  have hevents := walk.emitEvents_of_sheds hsheds hkeys hlabels hlabels' walk' htrace hfollows
    hemitted
  -- Both states before the second walk are the same without references.
  have hstart : (Emission.initial layout').unreferred = (Emission.initial layout).unreferred := by
    simp only [Emission.initial, Emission.unreferred, ← Layout.rewind_unreferred,
      hsheds.unreferred]
  have hsame : (emitEvents labels' (Emission.initial layout') (trace'.map Prod.snd)).map
        Emission.unreferred =
      (emitEvents labels' (Emission.initial layout) (trace'.map Prod.snd)).map
        Emission.unreferred := by
    rw [← emitEvents_unreferred, ← emitEvents_unreferred, hstart]
  obtain ⟨last, hlast, hview⟩ := exists_of_map_eq hsame hevents
  refine ⟨last, Program.emit_eq_ok.mpr ⟨trace', layout', labels', walk', hclosed', hlabels',
    hlast⟩, ?_⟩
  rw [← segmentCode_unreferred, hview, segmentCode_unreferred]

end Asm65816
