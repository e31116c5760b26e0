import Asm65816.Proofs.LayoutViews

/-!
# Places in the source and the layout

A layout remembers where its segments, labels, references and flow structures were written, for
the reports on them. Nothing else depends on these places: statements are laid out, labels are
resolved and bytes are emitted alike from layouts that differ in their places only. Nor does it
matter where the walks come across the start of an included source.
-/

namespace Asm65816

/-! ## Leaving places out -/

def Label.unplaced (label : Label) : Label := { label with location := default }

def Reference.unplaced (reference : Reference) : Reference := { reference with location := default }

def FlowFrame.unplaced (frame : FlowFrame) : FlowFrame := { frame with location := default }

def Segment.unplaced (segment : Segment) : Segment :=
  { segment with
    location := default
    labels := segment.labels.mapValues Label.unplaced
    references := segment.references.map Reference.unplaced }

def FlowState.unplaced (state : FlowState) : FlowState :=
  { state with frames := state.frames.map FlowFrame.unplaced }

/-- A layout without the places of what it holds. -/
def Layout.unplaced (layout : Layout) : Layout :=
  { layout with
    segments := layout.segments.mapValues Segment.unplaced
    flow := layout.flow.unplaced }

def Event.unplaced : Event → Event
  | .operation placed size _ => .operation placed size default
  | .enter call _ => .enter call default
  | .leave _ => .leave default

/-- Whether an event marks where an included source starts, which shows in a listing only. -/
def Event.isMark : Event → Bool
  | .operation (.includeSource _) 0 _ => true
  | _ => false

/-- What an event does to a layout, if it does anything, without its place. -/
def Event.bare? (event : Event) : Option Event :=
  if event.isMark then none else some event.unplaced

/-- The view of a layout that leaves the places out. -/
def unplacedView : LayoutView := ⟨fun _ => default, List.map Reference.unplaced, rfl⟩

theorem unplacedView_keepsReferences : unplacedView.KeepsReferences := fun _ _ _ _ =>
  List.map_append

/-! ## The steps of a layout -/

theorem Segment.label?_unplaced (segment : Segment) (name : String) :
    segment.unplaced.label? name = (segment.label? name).map Label.unplaced :=
  unplacedView.label?_segment segment name

namespace Layout

variable (layout : Layout)

theorem unplaced_address : layout.unplaced.address = layout.address := rfl

theorem unplaced_globals : layout.unplaced.globals = layout.globals := rfl

theorem get?_unplaced (key : String) :
    layout.unplaced.segments.get? key = (layout.segments.get? key).map Segment.unplaced :=
  unplacedView.get?_layout layout key

theorem requireSegment_unplaced :
    layout.unplaced.requireSegment =
      layout.requireSegment.map fun found => (found.1, found.2.unplaced) :=
  unplacedView.requireSegment_layout layout

theorem unplaced_setSegment (key : String) (segment : Segment) :
    (layout.setSegment key segment).unplaced = layout.unplaced.setSegment key segment.unplaced :=
  unplacedView.layout_setSegment layout key segment

theorem enter_unplaced (name : String) :
    layout.unplaced.enter name = (layout.enter name).map Layout.unplaced :=
  unplacedView.enter_layout layout name

theorem advance_unplaced (size : Nat) :
    layout.unplaced.advance size = (layout.advance size).map Layout.unplaced :=
  unplacedView.advance_layout layout size

theorem occupy_unplaced (size : Nat) :
    layout.unplaced.occupy size = (layout.occupy size).map Layout.unplaced :=
  unplacedView.occupy_layout layout size

theorem setWidth_unplaced (register : WidthRegister) (wide : Bool) :
    layout.unplaced.setWidth register wide = (layout.setWidth register wide).unplaced :=
  unplacedView.setWidth_layout layout register wide

theorem kind_unplaced (number : Nat) :
    layout.unplaced.flow.frames[number]?.map FlowFrame.kind =
      layout.flow.frames[number]?.map FlowFrame.kind :=
  unplacedView.kind_layout layout number

theorem rewind_unplaced : layout.unplaced.rewind = layout.rewind.unplaced := by
  simp only [rewind, unplaced, Table.mapValues, List.map_map]
  rfl

theorem innermost?_unplaced :
    layout.unplaced.flow.innermost? = layout.flow.innermost?.map FlowFrame.unplaced := by
  simp only [FlowState.innermost?, unplaced, FlowState.unplaced, List.getElem?_map,
    Option.map_bind]
  rfl

end Layout

/-- An operation is laid out alike from layouts that differ in their places only. -/
theorem placeOperation_unplaced (environment : Environment) (calls : List MacroCall)
    (location : Location) (layout : Layout) (operation : Operation) :
    placeOperation environment calls default layout.unplaced operation =
      (placeOperation environment calls location layout operation).map fun found =>
        (found.1, found.2.1, found.2.2.unplaced) :=
  unplacedView.placeOperation_layout environment calls location layout operation fun _ =>
    unplacedView_keepsReferences

/-! ## Environments -/

/-- Environments that know the same names: macros of the same names, and the same equates. -/
structure Environment.SameNames (environment rest : Environment) : Prop where
  macros : ∀ name, rest.macros.has name = environment.macros.has name
  equates : rest.equates = environment.equates

/-- The environments find the same file under a path. -/
def Environment.SameFile (environment rest : Environment) (path : String) : Prop :=
  rest.search.store.locate rest.search.directories path =
    environment.search.store.locate environment.search.directories path

section Environments

variable {environment rest : Environment}

namespace Environment.SameNames

theorem resolveOperand_eq (h : environment.SameNames rest) (calls : List MacroCall)
    (location : Location) (layout : Layout) (operand : Expr) :
    resolveOperand rest calls location layout operand =
      resolveOperand environment calls location layout operand := by
  simp only [resolveOperand, h.equates]

theorem resolveOperands_eq (h : environment.SameNames rest) (calls : List MacroCall)
    (location : Location) (operands : List Expr) (layout : Layout) :
    resolveOperands rest calls location operands layout =
      resolveOperands environment calls location operands layout := by
  induction operands generalizing layout with
  | nil => rfl
  | cons operand others ih => simp only [resolveOperands, h.resolveOperand_eq, ih]

theorem placeData_eq (h : environment.SameNames rest) (calls : List MacroCall)
    (location : Location) (width : DataWidth) (operands : List Expr) (layout : Layout) :
    placeData rest calls location width operands layout =
      placeData environment calls location width operands layout := by
  induction operands generalizing layout with
  | nil => rfl
  | cons operand others ih => simp only [placeData, placeDatum, h.resolveOperand_eq, ih]

theorem placeFlow_eq (h : environment.SameNames rest) (calls : List MacroCall)
    (location : Location) (layout : Layout) (statement : FlowStatement) :
    placeFlow rest calls location layout statement =
      placeFlow environment calls location layout statement := by
  simp only [placeFlow, caseValue, h.equates]

/-- An operation is laid out alike under the same names, as far as it reads no file. -/
theorem placeOperation_eq (h : environment.SameNames rest) (calls : List MacroCall)
    (location : Location) (layout : Layout) (operation : Operation)
    (hfile : ∀ path, operation = .includeBinary path → environment.SameFile rest path) :
    placeOperation rest calls location layout operation =
      placeOperation environment calls location layout operation := by
  cases operation with
  | setOrigin operand => simp only [placeOperation, originValue, h.equates]
  | declareLabel name =>
    simp only [placeOperation, Layout.declareLabel, nameFault?, h.equates, h.macros]
  | instruction mnemonic operands => simp only [placeOperation, h.resolveOperands_eq]
  | data width operands => simp only [placeOperation, h.placeData_eq]
  | fill wide count value => simp only [placeOperation, h.resolveOperand_eq]
  | includeBinary path =>
    have hsame : rest.search.store.locate rest.search.directories path = _ := hfile path rfl
    simp only [placeOperation, hsame]
  | flow statement => simp only [placeOperation, h.placeFlow_eq]
  | createSegment | changeSegment | setWidth | includeSource | setGlobal | setGlobalAll => rfl

theorem conditionHolds_eq (h : environment.SameNames rest) (calls : List MacroCall)
    (address : Int) (condition : Option Expr) :
    conditionHolds rest calls address condition =
      conditionHolds environment calls address condition := by
  simp only [conditionHolds, h.equates]

/-- An operation is taken alike from layouts that differ in their places only. -/
theorem advance_operation (h : environment.SameNames rest)
    {calls : List MacroCall} {operation : Operation} (location location' : Location)
    {layout layout' next : Layout} {event : Event} {more : List Task}
    (hfile : ∀ path, operation = .includeBinary path → environment.SameFile rest path)
    (hlayout : layout'.unplaced = layout.unplaced)
    (hstep : Task.advance environment layout (.action calls (.operation operation location)) =
      .ok (event, next, more)) :
    ∃ event' next', Task.advance rest layout' (.action calls (.operation operation location')) =
        .ok (event', next', []) ∧ more = [] ∧ event'.unplaced = event.unplaced ∧
      next'.unplaced = next.unplaced := by
  simp only [Task.advance, bind_eq_ok, pure_eq_ok, failingAt_eq_ok] at hstep
  obtain ⟨⟨placed, size, mid⟩, hplaced, reached, hreached, hstep⟩ := hstep
  cases hstep
  have hplace : (placeOperation rest calls location' layout' operation).map
      (fun found => (found.1, found.2.1, found.2.2.unplaced)) =
        (placeOperation environment calls location layout operation).map
          fun found => (found.1, found.2.1, found.2.2.unplaced) := by
    rw [h.placeOperation_eq _ _ _ _ hfile, ← placeOperation_unplaced, ← placeOperation_unplaced,
      hlayout]
  obtain ⟨⟨placed', size', mid'⟩, hplaced', hsame⟩ := exists_of_map_eq hplace hplaced
  obtain ⟨rfl, rfl, hmid⟩ : placed' = placed ∧ size' = size ∧ mid'.unplaced = mid.unplaced := by
    simpa only [Prod.mk.injEq] using hsame
  have hoccupy : (mid'.occupy size').map Layout.unplaced =
      (mid.occupy size').map Layout.unplaced := by
    rw [← Layout.occupy_unplaced, ← Layout.occupy_unplaced, hmid]
  obtain ⟨next', hnext', hlast⟩ := exists_of_map_eq hoccupy hreached
  refine ⟨.operation placed' size' location', next', ?_, rfl, rfl, hlast⟩
  simp only [Task.advance, bind_eq_ok, pure_eq_ok, failingAt_eq_ok]
  exact ⟨_, hplaced', next', hnext', rfl⟩

end Environment.SameNames

end Environments

/-! ## Labels -/

theorem declaration?_unplaced (layout : Layout) (segment : Segment) (stem : String) :
    layout.unplaced.declaration? segment.unplaced stem =
      (layout.declaration? segment stem).map Label.unplaced := by
  simp only [Layout.declaration?, Segment.label?_unplaced, Layout.unplaced_globals,
    Layout.get?_unplaced]
  cases segment.label? stem with
  | some label => rfl
  | none =>
    cases layout.globals.get? stem with
    | none => rfl
    | some key =>
      cases hsegment : layout.segments.get? key with
      | none => simp [hsegment]
      | some owner => simp [hsegment, Segment.label?_unplaced]

theorem resolve_unplaced {layout : Layout} {key : String} {segment : Segment}
    {reference : Reference} {resolution : Resolution} :
    layout.unplaced.resolve key segment.unplaced reference.unplaced = .ok resolution ↔
      layout.resolve key segment reference = .ok resolution := by
  have hname : reference.unplaced.name = reference.name := rfl
  have haddress : reference.unplaced.address = reference.address := rfl
  simp only [Layout.resolve, hname, haddress, declaration?_unplaced]
  cases layout.declaration? segment (splitDirection reference.name).1 with
  | none => simp
  | some label =>
    have haddresses : label.unplaced.addresses = label.addresses := rfl
    simp only [Option.map_some, haddresses]
    cases resolveAddress label.addresses reference.address _ with
    | none => simp
    | some address => exact Iff.rfl

/-- Steps with the same results have them one after the other. -/
theorem mapM_map_eq_ok {ε α β γ : Type} {first : α → Except ε γ} {second : β → Except ε γ}
    {change : α → β}
    (h : ∀ item result, second (change item) = .ok result ↔ first item = .ok result)
    {items : List α} {results : List γ} :
    (items.map change).mapM second = .ok results ↔ items.mapM first = .ok results := by
  induction items generalizing results with
  | nil => exact Iff.rfl
  | cons item rest ih => simp only [List.map_cons, List.mapM_cons, bind_eq_ok, h, ih]

/-- References mean the same in layouts that differ in their places only. -/
theorem resolveAll_unplaced {layout : Layout} {labels : List Resolution} :
    layout.unplaced.resolveAll = .ok labels ↔ layout.resolveAll = .ok labels := by
  have hsegments {found : List (List Resolution)} :
      (layout.unplaced.segments.mapM fun entry =>
          entry.2.references.mapM (layout.unplaced.resolve entry.1 entry.2)) = .ok found ↔
        (layout.segments.mapM fun entry =>
          entry.2.references.mapM (layout.resolve entry.1 entry.2)) = .ok found := by
    refine mapM_map_eq_ok fun entry results => ?_
    exact mapM_map_eq_ok fun reference resolution => resolve_unplaced
  simp only [Layout.resolveAll, bind_eq_ok]
  exact exists_congr fun found => and_congr_left' hsegments

/-! ## Bytes -/

theorem place_unplaced (layout : Layout) (bytes : List UInt8) :
    layout.unplaced.place bytes = (layout.place bytes).map Layout.unplaced := by
  unfold Layout.place
  split
  · rfl
  · simp only [Layout.requireSegment_unplaced, bind_map, map_bind]
    refine bind_congr fun found => ?_
    have hwrite : found.2.unplaced.write layout.unplaced.address bytes =
        ((found.2.write layout.address bytes).1.unplaced,
          (found.2.write layout.address bytes).2) := rfl
    simp only [hwrite]
    obtain ⟨written, clash⟩ := found.2.write layout.address bytes
    cases clash with
    | some fault => rfl
    | none =>
      dsimp only
      rw [← Layout.advance_unplaced, Layout.unplaced_setSegment]

theorem code_unplaced (layout : Layout) (step : FlowStep) (address : Int) (number : Nat) :
    step.code layout.unplaced.flow address number = step.code layout.flow address number := by
  have hframe : layout.unplaced.flow.frames[number]? =
      layout.flow.frames[number]?.map FlowFrame.unplaced := List.getElem?_map
  unfold FlowStep.code
  rw [hframe]
  cases layout.flow.frames[number]? with
  | none => rfl
  | some frame =>
    obtain ⟨kind, opened, location⟩ := frame
    cases step with
    | caseStart value follows wide =>
      cases kind with
      | caseFrame switch nextAt =>
        simp only [Option.map_some, FlowStep.frameCode, FlowFrame.unplaced, FlowStep.caseCode,
          Layout.kind_unplaced]
        rfl
      | _ => rfl
    | _ => rfl

theorem emitOperation_unplaced (labels : List Resolution) (layout : Layout)
    (operation : PlacedOperation) :
    emitOperation labels layout.unplaced operation =
      (emitOperation labels layout operation).map fun emitted =>
        { emitted with layout := emitted.layout.unplaced } := by
  cases operation with
  | changeSegment name =>
    simp only [emitOperation, Layout.enter_unplaced, Layout.requireSegment_unplaced, bind_map,
      map_bind]
    rfl
  | setOrigin address =>
    simp only [emitOperation, Layout.requireSegment_unplaced, bind_map, map_bind]
    rfl
  | setWidth register wide =>
    simp only [emitOperation, Layout.setWidth_unplaced]
    rfl
  | instruction encoding =>
    simp only [emitOperation, map_bind]
    rfl
  | data width operands =>
    simp only [emitOperation, map_bind]
    rfl
  | fill wide count operand =>
    simp only [emitOperation, map_bind]
    rfl
  | flow step frame =>
    simp only [emitOperation, map_bind, code_unplaced]
    rfl
  | _ => rfl

theorem operation_unplaced {labels : List Resolution} {emission other next : Emission}
    {placed : PlacedOperation} {size : Nat}
    (hlayout : other.layout.unplaced = emission.layout.unplaced)
    (h : emission.operation labels placed size = .ok next) :
    ∃ last, other.operation labels placed size = .ok last ∧
      last.layout.unplaced = next.layout.unplaced := by
  obtain ⟨emitted, hemitted, hsize, layout, hplaced, rfl⟩ := operation_eq_ok.mp h
  have hemit : (emitOperation labels other.layout placed).map
      (fun emitted => { emitted with layout := emitted.layout.unplaced }) =
        (emitOperation labels emission.layout placed).map
          fun emitted => { emitted with layout := emitted.layout.unplaced } := by
    rw [← emitOperation_unplaced, ← emitOperation_unplaced, hlayout]
  obtain ⟨again, hagain, halike⟩ := exists_of_map_eq hemit hemitted
  obtain ⟨hcode, -, -, hreached⟩ := Emitted.mk.inj halike
  have hplace : (again.layout.place again.code.bytes).map Layout.unplaced =
      (emitted.layout.place emitted.code.bytes).map Layout.unplaced := by
    rw [← place_unplaced, ← place_unplaced, hreached, hcode]
  obtain ⟨last, hlast, hsame⟩ := exists_of_map_eq hplace hplaced
  refine ⟨⟨last, _⟩, operation_eq_ok.mpr ⟨again, hagain, ?_, last, hlast, rfl⟩, hsame⟩
  rw [hcode, hsize]

/-- Events that differ in their places only are taken alike. -/
theorem event_unplaced {labels : List Resolution} {event event' : Event}
    {emission other next : Emission}
    (hlayout : other.layout.unplaced = emission.layout.unplaced)
    (hevent : event'.unplaced = event.unplaced)
    (h : Emission.event labels emission event = .ok next) :
    ∃ next', Emission.event labels other event' = .ok next' ∧
      next'.layout.unplaced = next.layout.unplaced := by
  cases event with
  | operation placed size location =>
    cases event' with
    | operation placed' size' location' =>
      cases hevent
      obtain ⟨next', hnext', hsame⟩ := operation_unplaced hlayout (failingAt_eq_ok.mp h)
      exact ⟨next', failingAt_eq_ok.mpr hnext', hsame⟩
    | enter => cases hevent
    | leave => cases hevent
  | enter call location =>
    cases event' with
    | enter call' location' =>
      cases hevent
      cases h
      cases call <;> exact ⟨_, rfl, hlayout⟩
    | operation => cases hevent
    | leave => cases hevent
  | leave location =>
    cases event' with
    | leave location' =>
      cases h
      exact ⟨_, rfl, hlayout⟩
    | operation => cases hevent
    | enter => cases hevent

/-- A mark leaves the layout as it is. -/
theorem event_mark {event : Event} (h : event.isMark = true) (labels : List Resolution)
    (emission : Emission) :
    ∃ next, Emission.event labels emission event = .ok next ∧ next.layout = emission.layout := by
  unfold Event.isMark at h
  split at h
  case h_1 path location => exact ⟨⟨emission.layout, _⟩, rfl, rfl⟩
  case h_2 => cases h

theorem Event.bare?_eq_none {event : Event} : event.bare? = none ↔ event.isMark = true := by
  unfold bare?
  split <;> simp_all

theorem Event.bare?_eq_some {event bare : Event} (h : event.bare? = some bare) :
    event.unplaced = bare := by
  unfold bare? at h
  split at h
  · cases h
  · exact Option.some.inj h

theorem emitEvents_marks {events : List Event} (h : ∀ event ∈ events, event.bare? = none)
    (labels : List Resolution) (emission : Emission) :
    ∃ last, emitEvents labels emission events = .ok last ∧ last.layout = emission.layout := by
  induction events generalizing emission with
  | nil => exact ⟨emission, rfl, rfl⟩
  | cons event rest ih =>
    obtain ⟨next, hnext, hlayout⟩ :=
      event_mark (Event.bare?_eq_none.mp (h event List.mem_cons_self)) labels emission
    obtain ⟨last, hlast, hsame⟩ := ih (fun event hevent => h event (List.mem_cons_of_mem _ hevent))
      next
    refine ⟨last, ?_, hsame.trans hlayout⟩
    simp only [emitEvents, List.foldlM_cons, bind_eq_ok]
    exact ⟨next, hnext, hlast⟩

/-- Events that differ in marks and in their places only leave layouts behind that differ in places
only. -/
theorem emitEvents_bare {labels : List Resolution} {events others : List Event}
    {emission other last : Emission}
    (hlayout : other.layout.unplaced = emission.layout.unplaced)
    (hevents : others.filterMap Event.bare? = events.filterMap Event.bare?)
    (h : emitEvents labels emission events = .ok last) :
    ∃ final, emitEvents labels other others = .ok final ∧
      final.layout.unplaced = last.layout.unplaced := by
  induction events generalizing others emission other with
  | nil =>
    obtain rfl := pure_eq_ok.mp h
    obtain ⟨final, hfinal, hsame⟩ := emitEvents_marks (List.filterMap_eq_nil_iff.mp hevents) labels
      other
    exact ⟨final, hfinal, by rw [hsame, hlayout]⟩
  | cons event rest ih =>
    simp only [emitEvents, List.foldlM_cons, bind_eq_ok] at h
    obtain ⟨next, hnext, h⟩ := h
    cases hbare : event.bare? with
    | none =>
      obtain ⟨again, hagain, hsame⟩ := event_mark (Event.bare?_eq_none.mp hbare) labels emission
      obtain rfl := Except.ok.inj (hagain.symm.trans hnext)
      rw [List.filterMap_cons_none hbare] at hevents
      exact ih (by rw [hsame, hlayout]) hevents h
    | some bare =>
      -- The marks in front of the matching event are passed over.
      rw [List.filterMap_cons_some hbare] at hevents
      obtain ⟨marks, event', rest', rfl, hmarks, hevent', hrest⟩ :=
        List.filterMap_eq_cons_iff.mp hevents
      obtain ⟨reached, hreached, hpassed⟩ := emitEvents_marks hmarks labels other
      have hevent : event'.unplaced = event.unplaced :=
        (Event.bare?_eq_some hevent').trans (Event.bare?_eq_some hbare).symm
      obtain ⟨next', hnext', hsame⟩ := event_unplaced (hpassed ▸ hlayout) hevent hnext
      obtain ⟨final, hfinal, hlast⟩ := ih hsame hrest h
      refine ⟨final, ?_, hlast⟩
      rw [emitEvents_append, bind_eq_ok]
      exact ⟨reached, hreached, bind_eq_ok.mpr ⟨next', hnext', hfinal⟩⟩

/-- What an event does to a layout does not depend on its place. -/
theorem Event.bare?_eq_of_unplaced {event event' : Event} (h : event'.unplaced = event.unplaced) :
    event'.bare? = event.bare? := by
  have hmark (event : Event) : event.unplaced.isMark = event.isMark := by
    cases event with
    | operation placed size location => cases placed <;> cases size <;> rfl
    | enter => rfl
    | leave => rfl
  rw [bare?, bare?, ← hmark, h, hmark]

theorem filterMap_bare?_of_unplaced {events others : List Event}
    (h : others.map Event.unplaced = events.map Event.unplaced) :
    others.filterMap Event.bare? = events.filterMap Event.bare? := by
  induction events generalizing others with
  | nil =>
    obtain rfl := List.map_eq_nil_iff.mp h
    rfl
  | cons event rest ih =>
    obtain ⟨event', rest', rfl, hevent, hrest⟩ := List.map_eq_cons_iff.mp h
    rw [List.filterMap_cons, List.filterMap_cons, Event.bare?_eq_of_unplaced hevent, ih hrest]

theorem orderedSegments_unplaced (layout : Layout) :
    layout.unplaced.orderedSegments = layout.orderedSegments.mapValues Segment.unplaced := by
  unfold Layout.orderedSegments Table.mapValues
  rw [List.map_mergeSort]
  · rfl
  · intro first _ second _
    rfl

/-- The code of segments does not depend on places. -/
theorem segmentCode_eq_of_unplaced {emission other : Emission}
    (h : other.layout.unplaced = emission.layout.unplaced) :
    other.segmentCode = emission.segmentCode := by
  have hview (emission : Emission) : emission.segmentCode =
      .ofList (emission.layout.unplaced.orderedSegments.map fun entry =>
        (lowerText entry.2.name, entry.2.code)) := by
    rw [orderedSegments_unplaced, Table.mapValues, List.map_map]
    rfl
  rw [hview, hview, h]

/-- A program emits the same segments as another when the first walk through it comes to the same
layout through the same events, but for marks and places. -/
theorem Program.emit_of_firstWalk {program other : Program} {search search' : AssetSearch}
    {emission : Emission} (hemit : program.emit search true = .ok emission)
    (hwalk : ∀ {trace : List (Layout × Event)} {layout : Layout},
      FirstWalk (program.environment search) Layout.empty (bodyTasks [] program.actions) trace
        layout →
      ∃ trace' layout', FirstWalk (other.environment search') Layout.empty
          (bodyTasks [] other.actions) trace' layout' ∧
        layout'.unplaced = layout.unplaced ∧
        (trace'.map Prod.snd).filterMap Event.bare? =
          (trace.map Prod.snd).filterMap Event.bare?) :
    ∃ emission', other.emit search' true = .ok emission' ∧
      emission'.segmentCode = emission.segmentCode := by
  obtain ⟨trace, layout, labels, walk, hclosed, hlabels, hemitted⟩ := Program.emit_eq_ok.mp hemit
  obtain ⟨trace', layout', walk', hlayout, hevents⟩ := hwalk walk
  have hclosed' : layout'.flow.innermost? = none := by
    have hsame : layout'.unplaced.flow.innermost? = layout.unplaced.flow.innermost? := by
      rw [hlayout]
    rw [Layout.innermost?_unplaced, Layout.innermost?_unplaced, hclosed] at hsame
    exact Option.map_eq_none_iff.mp hsame
  have hlabels' : layout'.resolveAll = .ok labels := by
    rwa [← resolveAll_unplaced, hlayout, resolveAll_unplaced]
  have hstart : (Emission.initial layout').layout.unplaced =
      (Emission.initial layout).layout.unplaced := by
    rw [Emission.initial, Emission.initial, ← Layout.rewind_unplaced, hlayout,
      Layout.rewind_unplaced]
  obtain ⟨final, hfinal, hsame⟩ := emitEvents_bare hstart hevents hemitted
  exact ⟨final, Program.emit_eq_ok.mpr ⟨trace', layout', labels, walk', hclosed', hlabels', hfinal⟩,
    segmentCode_eq_of_unplaced hsame⟩

end Asm65816
