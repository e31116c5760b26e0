import Asm65816.Proofs.WalkFaults

/-!
# Views of a layout

A view changes the places that a layout remembers, and its references to labels. Both are records
for later, which laying out does not read: an operation is laid out in the view of a layout as it is
laid out in the layout, at the changed place, when it refers to no label or the view keeps the
references.
-/

namespace Asm65816

namespace Table

variable {α β : Type}

/-- The table with every value changed. -/
def mapValues (change : α → β) (table : Table α) : Table β :=
  table.map fun (key, value) => (key, change value)

theorem get?_mapValues (table : Table α) (change : α → β) (name : String) :
    (table.mapValues change).get? name = (table.get? name).map change :=
  get?_map table change name

theorem has_mapValues (table : Table α) (change : α → β) (name : String) :
    (table.mapValues change).has name = table.has name := by
  rw [has, has, get?_mapValues, Option.isSome_map]

theorem mapValues_put (table : Table α) (change : α → β) (name : String) (value : α) :
    (table.put name value).mapValues change = (table.mapValues change).put name (change value) := by
  induction table with
  | nil => rfl
  | cons entry rest ih =>
    obtain ⟨key, old⟩ := entry
    unfold mapValues at ih ⊢
    simp only [put, List.map_cons]
    split
    · rfl
    · rw [List.map_cons, ih]

theorem mapValues_alter (table : Table α) {change : α → β} {first : α → α} {second : β → β}
    (h : ∀ value, change (first value) = second (change value)) (name : String) :
    (table.alter name first).mapValues change = (table.mapValues change).alter name second := by
  induction table with
  | nil => rfl
  | cons entry rest ih =>
    obtain ⟨key, old⟩ := entry
    unfold mapValues at ih ⊢
    simp only [alter, List.map_cons]
    split
    · rw [List.map_cons, h]
    · rw [List.map_cons, ih]

end Table

/-- A change of the places in a layout, and of the references of a segment. -/
structure LayoutView where
  place : Location → Location
  references : List Reference → List Reference
  references_nil : references [] = []

/-- Whether laying an operation out can refer to labels. -/
def Operation.refers : Operation → Bool
  | instruction _ _ | data _ _ | fill _ _ _ => true
  | _ => false

namespace LayoutView

variable (view : LayoutView)

/-- The view keeps every reference, at the changed place. -/
def KeepsReferences : Prop :=
  ∀ references name address location,
    view.references (references ++ [⟨name, address, location⟩]) =
      view.references references ++ [⟨name, address, view.place location⟩]

def label (label : Label) : Label := { label with location := view.place label.location }

def frame (frame : FlowFrame) : FlowFrame := { frame with location := view.place frame.location }

def segment (segment : Segment) : Segment :=
  { segment with
    location := view.place segment.location
    labels := segment.labels.mapValues view.label
    references := view.references segment.references }

def flow (state : FlowState) : FlowState := { state with frames := state.frames.map view.frame }

/-- The view of a layout. -/
def layout (layout : Layout) : Layout :=
  { layout with
    segments := layout.segments.mapValues view.segment
    flow := view.flow layout.flow }

/-! ## Segments -/

section Segments

variable (found : Segment)

theorem label?_segment (name : String) :
    (view.segment found).label? name = (found.label? name).map view.label :=
  Table.get?_mapValues _ _ _

theorem segment_declare (name : String) (address : Int) (location : Location) :
    view.segment (found.declare name address location) =
      (view.segment found).declare name address (view.place location) := by
  simp only [segment, Segment.declare, Table.mapValues_put]
  rfl

theorem segment_redeclare (name : String) (address : Int) :
    view.segment (found.redeclare name address) = (view.segment found).redeclare name address := by
  simp only [segment, Segment.redeclare]
  congr 1
  refine Table.mapValues_alter found.labels ?_ name
  exact fun _ => rfl

theorem segment_foldl_refer (hkeeps : view.KeepsReferences) (names : List String) (address : Int)
    (location : Location) :
    view.segment
        (names.foldl (fun segment name => segment.refer name address location) found) =
      names.foldl (fun segment name => segment.refer name address (view.place location))
        (view.segment found) := by
  induction names generalizing found with
  | nil => rfl
  | cons name rest ih =>
    have hrefer : view.segment (found.refer name address location) =
        (view.segment found).refer name address (view.place location) := by
      simp only [segment, Segment.refer, hkeeps found.references name address location]
    rw [List.foldl_cons, List.foldl_cons, ih, hrefer]

end Segments

/-! ## The steps of a layout -/

section Steps

variable (layout : Layout)

theorem get?_layout (key : String) :
    (view.layout layout).segments.get? key = (layout.segments.get? key).map view.segment :=
  Table.get?_mapValues _ _ _

theorem requireSegment_layout :
    (view.layout layout).requireSegment =
      layout.requireSegment.map fun found => (found.1, view.segment found.2) := by
  have hcurrent : (view.layout layout).current = layout.current := rfl
  rw [Layout.requireSegment, Layout.requireSegment, hcurrent]
  cases layout.current with
  | none => rfl
  | some key =>
    simp only [get?_layout]
    cases layout.segments.get? key <;> rfl

theorem layout_setSegment (key : String) (found : Segment) :
    view.layout (layout.setSegment key found) =
      (view.layout layout).setSegment key (view.segment found) := by
  simp only [LayoutView.layout, Layout.setSegment]
  congr 1
  refine Table.mapValues_alter layout.segments ?_ key
  exact fun _ => rfl

theorem addSegment_layout (found : Segment) :
    (view.layout layout).addSegment (view.segment found) =
      (layout.addSegment found).map view.layout := by
  have hhas : (view.layout layout).segments.has (upperText (view.segment found).name) =
      layout.segments.has (upperText found.name) := Table.has_mapValues _ _ _
  simp only [Layout.addSegment, hhas]
  split
  · rfl
  · refine congrArg Except.ok ?_
    simp only [LayoutView.layout, Table.mapValues_put]
    rfl

theorem enter_layout (name : String) :
    (view.layout layout).enter name = (layout.enter name).map view.layout := by
  simp only [Layout.enter, get?_layout]
  cases layout.segments.get? (upperText name) <;> rfl

theorem advance_layout (size : Nat) :
    (view.layout layout).advance size = (layout.advance size).map view.layout := by
  simp only [Layout.advance, requireSegment_layout, bind_map, map_bind]
  refine bind_congr fun found => ?_
  change (if layout.address + size ≤ found.2.limit then _ else _) = _
  split
  · refine congrArg Except.ok ?_
    have hset := view.layout_setSegment layout found.1
      { found.2 with resume := layout.address + size }
    exact congrArg (fun next : Layout => { next with address := layout.address + size }) hset.symm
  · rfl

theorem occupy_layout (size : Nat) :
    (view.layout layout).occupy size = (layout.occupy size).map view.layout := by
  unfold Layout.occupy
  split
  · rfl
  · exact view.advance_layout layout size

theorem setWidth_layout (register : WidthRegister) (wide : Bool) :
    (view.layout layout).setWidth register wide = view.layout (layout.setWidth register wide) := by
  cases register <;> rfl

theorem refer_layout (hkeeps : view.KeepsReferences) (location : Location) (operand : Expr) :
    (view.layout layout).refer (view.place location) operand =
      (layout.refer location operand).map view.layout := by
  simp only [Layout.refer, requireSegment_layout, bind_map, map_bind]
  refine bind_congr fun found => congrArg Except.ok ?_
  rw [layout_setSegment, view.segment_foldl_refer _ hkeeps]
  rfl

theorem publish_layout (key name : String) (globalAll : Bool) :
    (view.layout layout).publish key name globalAll =
      view.layout (layout.publish key name globalAll) := by
  unfold Layout.publish
  change (if globalAll || layout.requests.get? name == some key then _ else _) = _
  split <;> rfl

theorem declareLabel_layout (environment : Environment) (location : Location) (name : String) :
    (view.layout layout).declareLabel environment (view.place location) name =
      (layout.declareLabel environment location name).map view.layout := by
  have haddress : (view.layout layout).address = layout.address := rfl
  have hglobals : (view.layout layout).globals = layout.globals := rfl
  simp only [Layout.declareLabel, requireSegment_layout, bind_map, map_bind, label?_segment,
    Option.isSome_map, haddress, hglobals]
  refine bind_congr fun found => ?_
  generalize (if isLocal name = true then declaredStem name else name) = stem
  split
  · refine congrArg Except.ok ?_
    rw [layout_setSegment, segment_redeclare]
  · split
    · rfl
    · refine congrArg Except.ok ?_
      rw [← publish_layout, layout_setSegment, segment_declare]
      rfl

theorem setGlobal_layout (name : String) :
    (view.layout layout).setGlobal name = (layout.setGlobal name).map view.layout := by
  simp only [Layout.setGlobal, requireSegment_layout, bind_map, map_bind, label?_segment,
    Option.isSome_map]
  refine bind_congr fun found => ?_
  split <;> rfl

theorem setGlobalAll_layout :
    (view.layout layout).setGlobalAll = layout.setGlobalAll.map view.layout := by
  simp only [Layout.setGlobalAll, requireSegment_layout, bind_map, map_bind]
  refine bind_congr fun found => congrArg Except.ok ?_
  rw [layout_setSegment]
  rfl

theorem openFlow_layout (location : Location) (kind : FrameKind) :
    (view.layout layout).openFlow (view.place location) kind =
      ((layout.openFlow location kind).1, view.layout (layout.openFlow location kind).2) := by
  simp only [Layout.openFlow, FlowState.push, LayoutView.layout, flow, List.length_map,
    List.map_append]
  rfl

theorem pop?_flow (state : FlowState) :
    (view.flow state).pop? = state.pop?.map fun found =>
      (found.1, view.frame found.2.1, view.flow found.2.2) := by
  simp only [FlowState.pop?, flow]
  cases state.opened with
  | nil => rfl
  | cons number rest =>
    simp only [List.getElem?_map]
    cases state.frames[number]? <;> rfl

theorem closeFlow_layout (keyword : String) :
    (view.layout layout).closeFlow keyword = (layout.closeFlow keyword).map fun found =>
      (found.1, view.frame found.2.1, view.layout found.2.2) := by
  have hflow : (view.layout layout).flow = view.flow layout.flow := rfl
  rw [Layout.closeFlow, Layout.closeFlow, hflow, pop?_flow]
  cases layout.flow.pop? <;> rfl

theorem setFlow_layout (number : Nat) (kind : FrameKind) :
    (view.layout layout).setFlow number kind = view.layout (layout.setFlow number kind) := by
  simp only [Layout.setFlow, FlowState.setKind, LayoutView.layout, flow]
  congr 2
  apply List.ext_getElem?
  intro index
  simp only [List.getElem?_modify, List.getElem?_map]
  cases layout.flow.frames[index]? with
  | none => rfl
  | some frame =>
    simp only [Option.map_some]
    split <;> rfl

theorem kind_layout (number : Nat) :
    (view.layout layout).flow.frames[number]?.map FlowFrame.kind =
      layout.flow.frames[number]?.map FlowFrame.kind := by
  change (layout.flow.frames.map view.frame)[number]?.map _ = _
  rw [List.getElem?_map, Option.map_map]
  rfl

end Steps

/-! ## Statements -/

section Statements

variable (environment : Environment) (calls : List MacroCall) (location : Location)

theorem resolveOperand_layout (hkeeps : view.KeepsReferences) (layout : Layout) (operand : Expr) :
    resolveOperand environment calls (view.place location) (view.layout layout) operand =
      (resolveOperand environment calls location layout operand).map fun found =>
        (found.1, view.layout found.2) := by
  simp only [resolveOperand, map_bind, view.refer_layout layout hkeeps location, bind_map]
  rfl

theorem resolveOperands_layout (hkeeps : view.KeepsReferences) (operands : List Expr)
    (layout : Layout) :
    resolveOperands environment calls (view.place location) operands (view.layout layout) =
      (resolveOperands environment calls location operands layout).map fun found =>
        (found.1, view.layout found.2) := by
  induction operands generalizing layout with
  | nil => rfl
  | cons operand rest ih =>
    simp only [resolveOperands, view.resolveOperand_layout _ _ location hkeeps, map_bind, bind_map,
      ih]
    rfl

theorem placeData_layout (hkeeps : view.KeepsReferences) (width : DataWidth)
    (operands : List Expr) (layout : Layout) :
    placeData environment calls (view.place location) width operands (view.layout layout) =
      (placeData environment calls location width operands layout).map fun found =>
        (found.1, found.2.1, view.layout found.2.2) := by
  induction operands generalizing layout with
  | nil => rfl
  | cons operand rest ih =>
    have hdatum : placeDatum environment calls (view.place location) width (view.layout layout)
          operand =
        (placeDatum environment calls location width layout operand).map fun found =>
          (found.1, found.2.1, view.layout found.2.2) := by
      unfold placeDatum
      split
      · split <;> rfl
      · simp only [view.resolveOperand_layout _ _ location hkeeps, map_bind, bind_map]
        rfl
    simp only [placeData, hdatum, map_bind, bind_map, ih]
    rfl

theorem placeFlow_layout (layout : Layout) (statement : FlowStatement) :
    placeFlow environment calls (view.place location) (view.layout layout) statement =
      (placeFlow environment calls location layout statement).map fun found =>
        (found.1, found.2.1, found.2.2.1, view.layout found.2.2.2) := by
  have haddress (layout : Layout) : (view.layout layout).address = layout.address := rfl
  simp only [placeFlow, requireSegment_layout, bind_map, map_bind]
  refine bind_congr fun _ => ?_
  cases statement with
  | ifStart condition | whileStart condition | switchStart register | loopStart =>
    simp only [view.openFlow_layout layout location]
    rfl
  | elseStart | ifEnd | loopUntil condition | whileEnd =>
    simp only [closeFlow_layout, bind_map, map_bind]
    refine bind_congr fun found => ?_
    obtain ⟨opener, ⟨kind, opened, place⟩, rest⟩ := found
    cases kind <;> simp only [frame, setFlow_layout, view.openFlow_layout _ location]
    all_goals rfl
  | loopForever =>
    simp only [closeFlow_layout, bind_map, map_bind]
    refine bind_congr fun found => ?_
    obtain ⟨opener, ⟨kind, opened, place⟩, rest⟩ := found
    cases kind with
    | loopFrame =>
      simp only [frame, haddress, apply_ite (Except.map _)]
      rfl
    | _ => rfl
  | caseStart operand =>
    simp only [closeFlow_layout, bind_map, map_bind, haddress]
    refine bind_congr fun found => ?_
    obtain ⟨opener, ⟨kind, opened, place⟩, rest⟩ := found
    -- The kind of the frame decides between the first case and a later one.
    cases kind <;> simp only [frame, setFlow_layout, kind_layout]
    all_goals
      split
      · simp only [map_bind, view.openFlow_layout _ location]
        rfl
      · rfl
  | switchEnd =>
    simp only [closeFlow_layout, bind_map, map_bind, haddress]
    refine bind_congr fun found => ?_
    obtain ⟨opener, ⟨kind, opened, place⟩, rest⟩ := found
    cases kind <;> simp only [frame, setFlow_layout, kind_layout]
    all_goals split <;> rfl

/-- An operation is laid out alike in the view when the view keeps the references that the operation
adds. -/
theorem placeOperation_layout (layout : Layout) (operation : Operation)
    (hkeeps : operation.refers = true → view.KeepsReferences) :
    placeOperation environment calls (view.place location) (view.layout layout) operation =
      (placeOperation environment calls location layout operation).map fun found =>
        (found.1, found.2.1, view.layout found.2.2) := by
  cases operation with
  | createSegment name start size fileOffset =>
    have hadd := view.addSegment_layout layout (.new name start size fileOffset location)
    have hnew : view.segment (.new name start size fileOffset location) =
        .new name start size fileOffset (view.place location) := by
      simp only [segment, Segment.new, view.references_nil]
      rfl
    rw [hnew] at hadd
    simp only [placeOperation, map_bind]
    exact (congrArg (· >>= _) hadd).trans (bind_map _ _ _)
  | changeSegment name =>
    simp only [placeOperation, enter_layout, map_bind, bind_map]
    rfl
  | setOrigin operand =>
    simp only [placeOperation, requireSegment_layout, map_bind, bind_map]
    rfl
  | setWidth register wide =>
    simp only [placeOperation, setWidth_layout]
    rfl
  | declareLabel name =>
    simp only [placeOperation, view.declareLabel_layout layout environment location, map_bind,
      bind_map]
    rfl
  | instruction mnemonic operands =>
    simp only [placeOperation, view.resolveOperands_layout _ _ location (hkeeps rfl), map_bind,
      bind_map, apply_ite (Except.map _)]
    rfl
  | data width operands =>
    simp only [placeOperation, view.placeData_layout _ _ location (hkeeps rfl), map_bind, bind_map]
    rfl
  | fill wide count value =>
    simp only [placeOperation, view.resolveOperand_layout _ _ location (hkeeps rfl), map_bind,
      bind_map]
    rfl
  | includeBinary path =>
    simp only [placeOperation, requireSegment_layout, map_bind, bind_map]
    rfl
  | includeSource path => rfl
  | setGlobal name =>
    simp only [placeOperation, setGlobal_layout, map_bind, bind_map]
    rfl
  | setGlobalAll =>
    simp only [placeOperation, setGlobalAll_layout, map_bind, bind_map]
    rfl
  | flow statement =>
    simp only [placeOperation, view.placeFlow_layout _ _ location, map_bind, bind_map]
    rfl

end Statements

end LayoutView

end Asm65816
