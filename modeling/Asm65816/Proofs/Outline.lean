import Asm65816.Proofs.FlowMove

/-!
# The shared part of a layout

Of a layout the two walks share the cursor and the outline of every segment: its name, its range
and where its code goes on. Labels, references, placed bytes and flow frames are no part of it.
Most operations leave the shared part alone until the address moves on; the others are listed.
-/

namespace Asm65816

/-- Where a walk is and which registers are wide. -/
structure Cursor where
  current : Option String
  address : Int
  widths : RegisterWidths
  deriving DecidableEq

/-- What the walks share of a segment. -/
structure Outline where
  name : String
  start : Int
  size : Int
  resume : Int
  deriving DecidableEq

/-- The outline of a segment. -/
def Segment.outline (segment : Segment) : Outline :=
  ⟨segment.name, segment.start, segment.size, segment.resume⟩

namespace Layout

/-- The cursor of a layout. -/
def cursor (layout : Layout) : Cursor := ⟨layout.current, layout.address, layout.widths⟩

/-- The outline of the segment found under a name. -/
def outline? (layout : Layout) (key : String) : Option Outline :=
  (layout.segments.get? key).map Segment.outline

/-- The names under which the segments are found, in the order of their creation. -/
def keys (layout : Layout) : List String := layout.segments.map Prod.fst

/-- Two layouts with the same shared part and the same frames. -/
structure Alike (first second : Layout) : Prop where
  cursor : first.cursor = second.cursor
  outline : ∀ key, first.outline? key = second.outline? key
  keys : first.keys = second.keys
  flow : first.flow = second.flow

/-- A layout shares everything with itself. -/
theorem Alike.refl (layout : Layout) : Alike layout layout := ⟨rfl, fun _ => rfl, rfl, rfl⟩

/-- Layouts that share their part with a third one share it with each other. -/
theorem Alike.trans {first second third : Layout} (h : Alike first second)
    (h' : Alike second third) : Alike first third :=
  ⟨h.cursor.trans h'.cursor, fun key => (h.outline key).trans (h'.outline key),
    h.keys.trans h'.keys, h.flow.trans h'.flow⟩

/-! ## What the operations on layouts do -/

/-- The current segment is the one found under the current name. -/
theorem requireSegment_eq_ok {layout : Layout} {key : String} {segment : Segment} :
    layout.requireSegment = .ok (key, segment) ↔
      layout.current = some key ∧ layout.segments.get? key = some segment := by
  unfold requireSegment
  cases hcurrent : layout.current with
  | none => simp
  | some found =>
    dsimp only
    cases hsegment : layout.segments.get? found with
    | none =>
      simp only [reduceCtorEq, Option.some.injEq, false_iff, not_and]
      rintro rfl
      simp [hsegment]
    | some segment' =>
      simp only [Except.ok.injEq, Prod.mk.injEq, Option.some.injEq]
      constructor
      · rintro ⟨rfl, rfl⟩
        exact ⟨rfl, hsegment⟩
      · rintro ⟨rfl, hfound⟩
        exact ⟨rfl, Option.some.inj (hsegment.symm.trans hfound)⟩

/-- Looking for the current segment fails in one way. -/
theorem requireSegment_eq_error {layout : Layout} {fault : Fault}
    (h : layout.requireSegment = .error fault) : fault = .missingSegment := by
  unfold requireSegment at h
  repeat' split at h
  all_goals cases h
  all_goals rfl

/-- Entering a segment goes to where its code goes on. -/
theorem enter_eq_ok {layout next : Layout} {name : String} :
    layout.enter name = .ok next ↔
      ∃ segment, layout.segments.get? (upperText name) = some segment ∧
        next = { layout with current := some (upperText name), address := segment.resume } := by
  unfold enter
  dsimp only
  cases hsegment : layout.segments.get? (upperText name) with
  | none => simp
  | some segment =>
    simp only [Except.ok.injEq, Option.some.injEq, exists_eq_left']
    exact eq_comm

/-- Entering a segment fails in one way. -/
theorem enter_eq_error {layout : Layout} {name : String} {fault : Fault}
    (h : layout.enter name = .error fault) : fault = .unknownDirective (upperText name) := by
  unfold enter at h
  dsimp only at h
  split at h
  all_goals cases h
  rfl

/-- Adding a segment puts it under a name that was free. -/
theorem addSegment_eq_ok {layout next : Layout} {segment : Segment} :
    layout.addSegment segment = .ok next ↔
      layout.segments.get? (upperText segment.name) = none ∧
        next =
          { layout with segments := layout.segments.put (upperText segment.name) segment } := by
  unfold addSegment
  dsimp only
  rw [refuse_eq_ok, Table.has, Except.ok.injEq, Bool.not_eq_true, Option.isSome_eq_false_iff,
    Option.isNone_iff_eq_none]
  exact and_congr_right fun _ => eq_comm

/-- Adding a segment adds its name. -/
theorem keys_addSegment {layout next : Layout} {segment : Segment}
    (h : layout.addSegment segment = .ok next) :
    next.keys = layout.keys ++ [upperText segment.name] := by
  obtain ⟨hfree, rfl⟩ := addSegment_eq_ok.mp h
  rw [keys, keys, Table.put_of_get? segment hfree, List.map_append, List.map_singleton]

/-- Moving on stays within the current segment. -/
theorem advance_eq_ok {layout next : Layout} {size : Nat} :
    layout.advance size = .ok next ↔
      ∃ key segment, layout.requireSegment = .ok (key, segment) ∧
        layout.address + size ≤ segment.limit ∧
        next = { layout.setSegment key { segment with resume := layout.address + size } with
          address := layout.address + size } := by
  simp only [advance, bind_eq_ok, demand_eq_ok, pure_eq_ok, Prod.exists]
  refine exists_congr fun key => exists_congr fun segment => and_congr_right fun _ =>
    and_congr_right fun _ => eq_comm

/-- Taking up a size moves on, unless there is nothing to take up. -/
theorem occupy_eq_ok {layout next : Layout} {size : Nat} :
    layout.occupy size = .ok next ↔
      size = 0 ∧ next = layout ∨ size ≠ 0 ∧ layout.advance size = .ok next := by
  unfold occupy
  split
  case isTrue hzero => simp only [hzero, true_and, ne_eq, not_true_eq_false, false_and, or_false,
    Except.ok.injEq, eq_comm]
  case isFalse hsized => simp only [hsized, false_and, ne_eq, not_false_eq_true, true_and, false_or]

/-- Moving on fails for want of a segment or of room in it. -/
theorem advance_eq_error {layout : Layout} {size : Nat} {fault : Fault}
    (h : layout.advance size = .error fault) :
    fault = .missingSegment ∨ ∃ name, fault = .segmentOverflow name := by
  rcases bind_eq_error.mp h with hmissing | ⟨⟨key, segment⟩, -, h⟩
  · exact .inl (requireSegment_eq_error hmissing)
  · dsimp only at h
    split at h
    · cases h
    · cases h
      exact .inr ⟨_, rfl⟩

/-- Replacing a segment changes what its name finds. -/
theorem get?_setSegment (layout : Layout) (key other : String) (segment : Segment) :
    (layout.setSegment key segment).segments.get? other =
      if key = other then (layout.segments.get? other).map fun _ => segment
      else layout.segments.get? other :=
  Table.get?_alter _ _ _ _

/-- Replacing a segment by one of the same outline changes nothing that is shared. -/
theorem setSegment_alike {layout : Layout} {key : String} {segment found : Segment}
    (hfound : layout.segments.get? key = some found) (houtline : segment.outline = found.outline) :
    Alike (layout.setSegment key segment) layout := by
  refine ⟨rfl, fun other => ?_, Table.map_fst_alter _ _ _, rfl⟩
  simp only [outline?, get?_setSegment]
  split
  case isTrue hkey =>
    rw [← hkey, hfound, Option.map_some, Option.map_some, Option.map_some, houtline]
  case isFalse => rfl

/-- Replacing the current segment by one of the same outline changes nothing that is shared. -/
theorem setCurrent_alike {layout : Layout} {key : String} {segment found : Segment}
    (h : layout.requireSegment = .ok (key, found)) (houtline : segment.outline = found.outline) :
    Alike (layout.setSegment key segment) layout :=
  setSegment_alike (requireSegment_eq_ok.mp h).2 houtline

/-- Recording names adds a reference for each of them. -/
theorem foldl_refer (segment : Segment) (names : List String) (address : Int)
    (location : Location) :
    names.foldl (fun segment name => segment.refer name address location) segment =
      { segment with
        references := segment.references ++ names.map fun name => ⟨name, address, location⟩ } := by
  induction names generalizing segment with
  | nil => simp
  | cons name rest ih =>
    rw [List.foldl_cons, ih]
    simp [Segment.refer]

/-- Preparing an operand records the names it leaves open in the current segment. -/
theorem refer_eq_ok {layout next : Layout} {location : Location} {operand : Expr}
    (h : layout.refer location operand = .ok next) :
    ∃ key segment, layout.requireSegment = .ok (key, segment) ∧
      next = layout.setSegment key
        { segment with
          references := segment.references ++
            (operand.openIdents.filter fun name => !isReserved name).map fun name =>
              ⟨name, layout.address, location⟩ } := by
  simp only [refer, bind_eq_ok, pure_eq_ok, Prod.exists, foldl_refer] at h
  obtain ⟨key, segment, hcurrent, rfl⟩ := h
  exact ⟨key, segment, hcurrent, rfl⟩

/-- Recording references changes nothing that is shared. -/
theorem refer_alike {layout next : Layout} {location : Location} {operand : Expr}
    (h : layout.refer location operand = .ok next) : Alike next layout := by
  obtain ⟨key, segment, hcurrent, rfl⟩ := refer_eq_ok h
  exact setCurrent_alike hcurrent rfl

/-- Declaring a label changes the labels of the current segment and what is global. -/
theorem declareLabel_eq_ok {environment : Environment} {layout next : Layout}
    {location : Location} {name : String}
    (h : layout.declareLabel environment location name = .ok next) :
    ∃ key segment labels globals, layout.requireSegment = .ok (key, segment) ∧
      next =
        { layout.setSegment key { segment with labels := labels } with globals := globals } := by
  unfold declareLabel at h
  obtain ⟨⟨key, segment⟩, hcurrent, h⟩ := bind_eq_ok.mp h
  dsimp only at h
  generalize (if isLocal name then declaredStem name else name) = stem at h
  split at h
  case isTrue =>
    obtain rfl := pure_eq_ok.mp h
    exact ⟨key, segment, _, layout.globals, hcurrent, rfl⟩
  case isFalse =>
    split at h
    case h_1 => cases h
    case h_2 =>
      obtain rfl := pure_eq_ok.mp h
      unfold publish
      split
      · exact ⟨key, segment, _, _, hcurrent, rfl⟩
      · exact ⟨key, segment, _, layout.globals, hcurrent, rfl⟩

/-- Declaring a label changes nothing that is shared. -/
theorem declareLabel_alike {environment : Environment} {layout next : Layout}
    {location : Location} {name : String}
    (h : layout.declareLabel environment location name = .ok next) : Alike next layout := by
  obtain ⟨key, segment, labels, globals, hcurrent, rfl⟩ := declareLabel_eq_ok h
  have halike : Alike (layout.setSegment key { segment with labels := labels }) layout :=
    setCurrent_alike hcurrent rfl
  exact ⟨halike.cursor, halike.outline, halike.keys, halike.flow⟩

/-- Making a name global changes what is asked for and what is global. -/
theorem setGlobal_eq_ok {layout next : Layout} {name : String}
    (h : layout.setGlobal name = .ok next) :
    ∃ requests globals, next = { layout with requests := requests, globals := globals } := by
  unfold setGlobal at h
  obtain ⟨⟨key, segment⟩, -, h⟩ := bind_eq_ok.mp h
  dsimp only at h
  split at h
  · obtain rfl := pure_eq_ok.mp h
    exact ⟨_, _, rfl⟩
  · obtain rfl := pure_eq_ok.mp h
    exact ⟨_, layout.globals, rfl⟩

/-- Making a name global changes nothing that is shared. -/
theorem setGlobal_alike {layout next : Layout} {name : String}
    (h : layout.setGlobal name = .ok next) : Alike next layout := by
  obtain ⟨requests, globals, rfl⟩ := setGlobal_eq_ok h
  exact ⟨rfl, fun _ => rfl, rfl, rfl⟩

/-- Making all names global changes a mark of the current segment. -/
theorem setGlobalAll_eq_ok {layout next : Layout} (h : layout.setGlobalAll = .ok next) :
    ∃ key segment, layout.requireSegment = .ok (key, segment) ∧
      next = layout.setSegment key { segment with globalAll := true } := by
  unfold setGlobalAll at h
  obtain ⟨⟨key, segment⟩, hcurrent, h⟩ := bind_eq_ok.mp h
  exact ⟨key, segment, hcurrent, (pure_eq_ok.mp h).symm⟩

/-- Making all names global changes nothing that is shared. -/
theorem setGlobalAll_alike {layout next : Layout} (h : layout.setGlobalAll = .ok next) :
    Alike next layout := by
  obtain ⟨key, segment, hcurrent, rfl⟩ := setGlobalAll_eq_ok h
  exact setCurrent_alike hcurrent rfl

end Layout

/-! ## Laying out an operation -/

section Placing

variable {environment : Environment} {calls : List MacroCall} {location : Location}

/-- Binding names makes no text of what is none. -/
theorem bindNames_datumLength {ε : Type} {choose : Name → Except ε (Option Expr)}
    {operand bound : Expr} (h : operand.bindNames choose = .ok bound) (width : DataWidth) :
    datumLength width bound = datumLength width operand := by
  cases operand with
  | name name =>
    simp only [Expr.bindNames, bind_eq_ok] at h
    obtain ⟨value, -, h⟩ := h
    cases value with
    | none => cases h; rfl
    | some value => cases h; rfl
  | binary operator left right =>
    simp only [Expr.bindNames, bind_eq_ok, pure_eq_ok] at h
    obtain ⟨_, -, _, -, rfl⟩ := h
    rfl
  | number number => cases h; rfl
  | text content petscii => cases h; rfl
  | _ =>
    simp only [Expr.bindNames, bind_eq_ok, pure_eq_ok] at h
    obtain ⟨_, -, rfl⟩ := h
    rfl

/-- Preparing an operand changes nothing that is shared, and makes no text of what is none. -/
theorem resolveOperand_alike {layout next : Layout} {operand bound : Expr}
    (h : resolveOperand environment calls location layout operand = .ok (bound, next)) :
    next.Alike layout ∧ ∀ width, datumLength width bound = datumLength width operand := by
  simp only [resolveOperand, bind_eq_ok, pure_eq_ok, Prod.mk.injEq] at h
  obtain ⟨argued, hargued, _, hequated, _, hrefer, rfl, rfl⟩ := h
  refine ⟨Layout.refer_alike hrefer, fun width => (bindNames_datumLength hequated width).trans ?_⟩
  cases calls with
  | nil => cases hargued; rfl
  | cons call outer => exact bindNames_datumLength hargued width

/-- Preparing operands changes nothing that is shared. -/
theorem resolveOperands_alike {operands bound : List Expr} {layout next : Layout}
    (h : resolveOperands environment calls location operands layout = .ok (bound, next)) :
    next.Alike layout := by
  induction operands generalizing layout bound with
  | nil =>
    cases h
    exact .refl _
  | cons operand rest ih =>
    simp only [resolveOperands, bind_eq_ok, pure_eq_ok] at h
    obtain ⟨⟨first, mid⟩, hfirst, ⟨others, reached⟩, hothers, hresult⟩ := h
    cases hresult
    exact (ih hothers).trans (resolveOperand_alike hfirst).1

/-- Laying out data changes nothing that is shared and counts the bytes of its items. -/
theorem placeData_alike {width : DataWidth} {operands bound : List Expr} {size : Nat}
    {layout next : Layout}
    (h : placeData environment calls location width operands layout = .ok (bound, size, next)) :
    next.Alike layout ∧ size = dataLength width bound := by
  induction operands generalizing layout bound size with
  | nil =>
    cases h
    exact ⟨.refl _, rfl⟩
  | cons operand rest ih =>
    simp only [placeData, bind_eq_ok, pure_eq_ok] at h
    obtain ⟨⟨first, count, mid⟩, hfirst, ⟨others, more, reached⟩, hothers, hresult⟩ := h
    cases hresult
    obtain ⟨hlater, rfl⟩ := ih hothers
    have hdatum : mid.Alike layout ∧ count = datumLength width first := by
      cases operand with
      | text content petscii =>
        obtain ⟨-, hfirst⟩ := demand_eq_ok.mp hfirst
        cases hfirst
        exact ⟨.refl _, rfl⟩
      | _ =>
        simp only [placeDatum, bind_eq_ok, pure_eq_ok] at hfirst
        obtain ⟨⟨resolved, found⟩, hresolved, hfirst⟩ := hfirst
        cases hfirst
        obtain ⟨halike, hlength⟩ := resolveOperand_alike hresolved
        exact ⟨halike, (hlength width).symm⟩
    refine ⟨hlater.trans hdatum.1, ?_⟩
    rw [dataLength, hdatum.2]

end Placing

/-- What laying out an operation makes of a layout, before the address moves on. -/
def PlacedOperation.Moves (location : Location) (layout next : Layout) : PlacedOperation → Prop
  | .createSegment name start size fileOffset =>
    layout.addSegment (.new name start size fileOffset location) = .ok next
  | .changeSegment name => layout.enter name = .ok next
  | .setOrigin address =>
    (∃ found, layout.requireSegment = .ok found) ∧ next = { layout with address := address }
  | .setWidth register wide => next = layout.setWidth register wide
  | .flow step number =>
    FlowMove location layout.address layout.flow step number next.flow ∧
      next = { layout with flow := next.flow }
  | _ => next.Alike layout

/-- Laying out an operation moves the layout as the operation says and sizes it by its length. -/
theorem placeOperation_moves {environment : Environment} {calls : List MacroCall}
    {location : Location} {layout next : Layout} {operation : Operation}
    {placed : PlacedOperation} {size : Nat}
    (h : placeOperation environment calls location layout operation = .ok (placed, size, next)) :
    placed.Moves location layout next ∧ size = placed.length := by
  unfold placeOperation at h
  cases operation with
  | createSegment name start size fileOffset =>
    obtain ⟨added, hadded, h⟩ := bind_eq_ok.mp h
    cases h
    exact ⟨hadded, rfl⟩
  | changeSegment name =>
    obtain ⟨entered, hentered, h⟩ := bind_eq_ok.mp h
    cases h
    exact ⟨hentered, rfl⟩
  | setOrigin operand =>
    obtain ⟨found, hfound, h⟩ := bind_eq_ok.mp h
    obtain ⟨origin, -, h⟩ := bind_eq_ok.mp h
    cases h
    exact ⟨⟨⟨found, hfound⟩, rfl⟩, rfl⟩
  | setWidth register wide =>
    cases h
    exact ⟨rfl, rfl⟩
  | declareLabel name =>
    obtain ⟨declared, hdeclared, h⟩ := bind_eq_ok.mp h
    cases h
    exact ⟨Layout.declareLabel_alike hdeclared, rfl⟩
  | instruction mnemonic operands =>
    obtain ⟨-, h⟩ := refuse_eq_ok.mp h
    obtain ⟨⟨bound, resolved⟩, hresolved, h⟩ := bind_eq_ok.mp h
    obtain ⟨opcode, -, h⟩ := bind_eq_ok.mp h
    cases h
    refine ⟨resolveOperands_alike hresolved, ?_⟩
    simp only [PlacedOperation.length, Encoding.length, Opcode.encodedSize, Opcode.isWide,
      Bool.and_eq_true, beq_iff_eq, and_self_left]
  | data width operands =>
    obtain ⟨⟨bound, count, resolved⟩, hresolved, h⟩ := bind_eq_ok.mp h
    cases h
    exact placeData_alike hresolved
  | fill wide count value =>
    obtain ⟨⟨boundCount, mid⟩, hcount, h⟩ := bind_eq_ok.mp h
    obtain ⟨⟨boundValue, resolved⟩, hvalue, h⟩ := bind_eq_ok.mp h
    obtain ⟨number, -, h⟩ := bind_eq_ok.mp h
    cases h
    exact ⟨(resolveOperand_alike hvalue).1.trans (resolveOperand_alike hcount).1, rfl⟩
  | includeBinary path =>
    obtain ⟨found, -, h⟩ := bind_eq_ok.mp h
    obtain ⟨asset, -, h⟩ := bind_eq_ok.mp h
    cases h
    exact ⟨.refl _, rfl⟩
  | includeSource path =>
    cases h
    exact ⟨.refl _, rfl⟩
  | setGlobal name =>
    obtain ⟨published, hpublished, h⟩ := bind_eq_ok.mp h
    cases h
    exact ⟨Layout.setGlobal_alike hpublished, rfl⟩
  | setGlobalAll =>
    obtain ⟨published, hpublished, h⟩ := bind_eq_ok.mp h
    cases h
    exact ⟨Layout.setGlobalAll_alike hpublished, rfl⟩
  | flow statement =>
    obtain ⟨⟨step, number, count, moved⟩, hmoved, h⟩ := bind_eq_ok.mp h
    cases h
    obtain ⟨hmove, hsize, hnext⟩ := placeFlow_move hmoved
    exact ⟨⟨hmove, hnext⟩, hsize⟩

end Asm65816
