import Asm65816.Proofs.LayoutPositions

/-!
# References to labels and the layout

A layout records which labels the operands refer to, for the time when all addresses are known.
Until then nothing reads these records. Statements are laid out alike in layouts that differ in them
only. The same labels may be referred to in another order, and one of the layouts may refer to fewer
of them.
-/

namespace Asm65816

/-! ## Leaving references out -/

def Segment.unreferred (segment : Segment) : Segment := { segment with references := [] }

/-- A layout without the labels that are referred to. -/
def Layout.unreferred (layout : Layout) : Layout :=
  { layout with segments := layout.segments.mapValues Segment.unreferred }

/-- The references from the segment found under `key`. -/
def Layout.uses (layout : Layout) (key : String) : List Reference :=
  ((layout.segments.get? key).map Segment.references).getD []

/-- The view of a layout that leaves the references out. -/
def unreferredView : LayoutView := ⟨id, fun _ => [], rfl⟩

theorem unreferredView_segment : unreferredView.segment = Segment.unreferred := by
  funext segment
  have hlabels : segment.labels.mapValues unreferredView.label = segment.labels := List.map_id _
  simp only [LayoutView.segment, hlabels]
  rfl

theorem unreferredView_layout : unreferredView.layout = Layout.unreferred := by
  funext layout
  have hflow : unreferredView.flow layout.flow = layout.flow := by
    simp only [LayoutView.flow]
    congr 1
    exact List.map_id _
  rw [LayoutView.layout, unreferredView_segment, hflow, Layout.unreferred]

namespace Layout

variable (layout : Layout)

theorem get?_unreferred (key : String) :
    layout.unreferred.segments.get? key = (layout.segments.get? key).map Segment.unreferred :=
  Table.get?_mapValues _ _ _

theorem requireSegment_unreferred :
    layout.unreferred.requireSegment =
      layout.requireSegment.map fun found => (found.1, found.2.unreferred) := by
  simpa only [unreferredView_layout, unreferredView_segment] using
    unreferredView.requireSegment_layout layout

/-- Layouts that are equal but for references have the same current segment, but for references. -/
theorem requireSegment_of_unreferred {layout other : Layout}
    (h : other.unreferred = layout.unreferred) :
    other.requireSegment.map (fun found => (found.1, found.2.unreferred)) =
      layout.requireSegment.map fun found => (found.1, found.2.unreferred) := by
  rw [← requireSegment_unreferred, ← requireSegment_unreferred, h]

theorem unreferred_setSegment (key : String) (segment : Segment) :
    (layout.setSegment key segment).unreferred =
      layout.unreferred.setSegment key segment.unreferred := by
  simpa only [unreferredView_layout, unreferredView_segment] using
    unreferredView.layout_setSegment layout key segment

theorem enter_unreferred (name : String) :
    layout.unreferred.enter name = (layout.enter name).map Layout.unreferred := by
  simpa only [unreferredView_layout] using unreferredView.enter_layout layout name

theorem advance_unreferred (size : Nat) :
    layout.unreferred.advance size = (layout.advance size).map Layout.unreferred := by
  simpa only [unreferredView_layout] using unreferredView.advance_layout layout size

theorem occupy_unreferred (size : Nat) :
    layout.unreferred.occupy size = (layout.occupy size).map Layout.unreferred := by
  simpa only [unreferredView_layout] using unreferredView.occupy_layout layout size

/-- A segment that replaces the current one and refers to the same labels. -/
theorem uses_setCurrent {layout : Layout} {key : String} {found : Segment}
    (h : layout.requireSegment = .ok (key, found)) (segment : Segment)
    (hsame : segment.references = found.references) :
    (layout.setSegment key segment).uses = layout.uses := by
  funext other
  simp only [uses, get?_setSegment]
  split
  case isTrue hkey =>
    rw [← hkey, (requireSegment_eq_ok.mp h).2, Option.map_some, Option.map_some, Option.map_some,
      hsame]
  case isFalse => rfl

/-- A segment without references that is added. -/
theorem uses_addSegment {layout next : Layout} {segment : Segment}
    (h : layout.addSegment segment = .ok next) (hnone : segment.references = []) :
    next.uses = layout.uses := by
  obtain ⟨hfree, rfl⟩ := addSegment_eq_ok.mp h
  funext other
  simp only [uses, Table.get?_put]
  split
  case isTrue hkey =>
    rw [← hkey, hfree, Option.map_some, hnone]
    rfl
  case isFalse => rfl

theorem uses_occupy {layout next : Layout} {size : Nat} (h : layout.occupy size = .ok next) :
    next.uses = layout.uses := by
  obtain ⟨-, rfl⟩ | ⟨-, h⟩ := occupy_eq_ok.mp h
  · rfl
  · obtain ⟨key, segment, hcurrent, -, rfl⟩ := advance_eq_ok.mp h
    exact uses_setCurrent hcurrent { segment with resume := layout.address + size } rfl

end Layout

/-! ## Statements that refer to no label -/

/-- An operation that refers to no label is laid out alike whatever labels were referred to. -/
theorem placeOperation_unreferred (environment : Environment) (calls : List MacroCall)
    (location : Location) (layout : Layout) {operation : Operation}
    (h : operation.refers = false) :
    placeOperation environment calls location layout.unreferred operation =
      (placeOperation environment calls location layout operation).map fun found =>
        (found.1, found.2.1, found.2.2.unreferred) := by
  rw [← unreferredView_layout]
  exact unreferredView.placeOperation_layout environment calls location layout operation
    fun hrefers => absurd hrefers (by simp [h])

section Statements

variable {environment : Environment} {calls : List MacroCall} {location : Location}

/-- An operation that refers to no label leaves the references as they are. -/
theorem placeOperation_uses {layout next : Layout} {operation : Operation}
    (h : operation.refers = false) {placed : PlacedOperation} {size : Nat}
    (hplaced : placeOperation environment calls location layout operation =
      .ok (placed, size, next)) : next.uses = layout.uses := by
  unfold placeOperation at hplaced
  cases operation with
  | instruction | data | fill => cases h
  | createSegment name start size fileOffset =>
    obtain ⟨added, hadded, hplaced⟩ := bind_eq_ok.mp hplaced
    cases hplaced
    exact Layout.uses_addSegment hadded rfl
  | changeSegment name =>
    obtain ⟨entered, hentered, hplaced⟩ := bind_eq_ok.mp hplaced
    cases hplaced
    obtain ⟨segment, -, rfl⟩ := Layout.enter_eq_ok.mp hentered
    rfl
  | setOrigin operand =>
    obtain ⟨found, -, hplaced⟩ := bind_eq_ok.mp hplaced
    obtain ⟨origin, -, hplaced⟩ := bind_eq_ok.mp hplaced
    cases hplaced
    rfl
  | setWidth register wide =>
    cases hplaced
    cases register <;> rfl
  | declareLabel name =>
    obtain ⟨declared, hdeclared, hplaced⟩ := bind_eq_ok.mp hplaced
    cases hplaced
    obtain ⟨key, segment, labels, globals, hcurrent, rfl⟩ := Layout.declareLabel_eq_ok hdeclared
    exact Layout.uses_setCurrent hcurrent { segment with labels := labels } rfl
  | includeBinary path =>
    obtain ⟨found, -, hplaced⟩ := bind_eq_ok.mp hplaced
    obtain ⟨asset, -, hplaced⟩ := bind_eq_ok.mp hplaced
    cases hplaced
    rfl
  | includeSource path =>
    cases hplaced
    rfl
  | setGlobal name =>
    obtain ⟨published, hpublished, hplaced⟩ := bind_eq_ok.mp hplaced
    cases hplaced
    obtain ⟨requests, globals, rfl⟩ := Layout.setGlobal_eq_ok hpublished
    rfl
  | setGlobalAll =>
    obtain ⟨published, hpublished, hplaced⟩ := bind_eq_ok.mp hplaced
    cases hplaced
    obtain ⟨key, segment, hcurrent, rfl⟩ := Layout.setGlobalAll_eq_ok hpublished
    exact Layout.uses_setCurrent hcurrent _ rfl
  | flow statement =>
    obtain ⟨⟨step, number, count, moved⟩, hmoved, hplaced⟩ := bind_eq_ok.mp hplaced
    cases hplaced
    obtain ⟨-, -, hnext⟩ := placeFlow_move hmoved
    rw [hnext]
    rfl

end Statements

/-! ## References in another order -/

/-- Layouts that differ at most in the order in which each segment refers to labels. -/
structure Layout.Reordered (layout other : Layout) : Prop where
  unreferred : other.unreferred = layout.unreferred
  uses : ∀ key, (other.uses key).Perm (layout.uses key)

namespace Layout.Reordered

theorem refl (layout : Layout) : layout.Reordered layout := ⟨rfl, fun _ => .refl _⟩

variable {layout other : Layout}

theorem address (h : layout.Reordered other) : other.address = layout.address := by
  change other.unreferred.address = layout.unreferred.address
  rw [h.unreferred]

theorem widths (h : layout.Reordered other) : other.widths = layout.widths := by
  change other.unreferred.widths = layout.unreferred.widths
  rw [h.unreferred]

theorem requireSegment (h : layout.Reordered other) :
    Coincide (fun found found' => found'.1 = found.1 ∧ found'.2.unreferred = found.2.unreferred ∧
        layout.segments.get? found.1 = some found.2 ∧ other.segments.get? found'.1 = some found'.2)
      layout.requireSegment other.requireSegment := by
  refine (Coincide.of_map_eq (requireSegment_of_unreferred h.unreferred)).attach.mono ?_
  rintro found found' ⟨hsame, hfirst, hsecond⟩
  obtain ⟨hkey, hsegment⟩ := Prod.mk.inj hsame
  exact ⟨hkey, hsegment, (requireSegment_eq_ok.mp hfirst).2, (requireSegment_eq_ok.mp hsecond).2⟩

/-- Referring to the same labels in another order. -/
theorem refer (h : layout.Reordered other) (location : Location) {operand operand' : Expr}
    (hnames : operand'.openIdents.Perm operand.openIdents) :
    Coincide Layout.Reordered (layout.refer location operand)
      (other.refer location operand') := by
  refine h.requireSegment.bind ?_
  rintro ⟨key, segment⟩ ⟨key', segment'⟩ ⟨rfl, hsegment, hfound, hfound'⟩
  dsimp only at hsegment hfound hfound' ⊢
  rw [foldl_refer, foldl_refer]
  refine .ok ⟨?_, fun found => ?_⟩
  · rw [unreferred_setSegment, unreferred_setSegment, h.unreferred]
    exact congrArg _ hsegment
  · have huses := h.uses found
    simp only [Layout.uses, get?_setSegment] at huses ⊢
    split
    case isTrue hkey =>
      subst hkey
      rw [hfound, hfound'] at huses
      rw [hfound, hfound']
      refine huses.append ?_
      rw [h.address]
      exact (hnames.filter _).map _
    case isFalse => exact huses

end Layout.Reordered

/-! ## Fewer references -/

/-- Layouts that are equal but for references, of which the second one has at most those of the
first. No reference is to a reserved name. -/
structure Layout.Sheds (layout other : Layout) : Prop where
  unreferred : other.unreferred = layout.unreferred
  uses : ∀ key, other.uses key ⊆ layout.uses key
  unreserved : ∀ key, ∀ reference ∈ layout.uses key, isReserved reference.name = false

namespace Layout.Sheds

theorem empty : Layout.empty.Sheds Layout.empty :=
  ⟨rfl, fun _ => List.Subset.refl _, fun _ _ hreference => by cases hreference⟩

variable {layout other next next' : Layout}

theorem address (h : layout.Sheds other) : other.address = layout.address := by
  change other.unreferred.address = layout.unreferred.address
  rw [h.unreferred]

theorem widths (h : layout.Sheds other) : other.widths = layout.widths := by
  change other.unreferred.widths = layout.unreferred.widths
  rw [h.unreferred]

/-- Layouts that refer to the same labels as before. -/
theorem of_uses (h : layout.Sheds other) (hsame : next'.unreferred = next.unreferred)
    (huses : next.uses = layout.uses) (huses' : next'.uses = other.uses) : next.Sheds next' :=
  ⟨hsame, fun key => by rw [huses, huses']; exact h.uses key,
    fun key => by rw [huses]; exact h.unreserved key⟩

/-- Referring to some of the same labels. -/
theorem refer (h : layout.Sheds other) {location : Location} {operand operand' : Expr}
    (hnames : operand'.openIdents ⊆ operand.openIdents)
    (hrefer : layout.refer location operand = .ok next) :
    ∃ next', other.refer location operand' = .ok next' ∧ next.Sheds next' := by
  obtain ⟨key, segment, hcurrent, rfl⟩ := refer_eq_ok hrefer
  obtain ⟨⟨key', segment'⟩, hcurrent', hfound⟩ :=
    exists_of_map_eq (requireSegment_of_unreferred h.unreferred) hcurrent
  obtain ⟨rfl, hsegment⟩ := Prod.mk.inj hfound
  refine ⟨_, by rw [Layout.refer, hcurrent', ok_bind]; rfl, ?_, fun found => ?_,
    fun found reference hreference => ?_⟩
  · rw [unreferred_setSegment, foldl_refer, unreferred_setSegment, h.unreferred]
    exact congrArg _ hsegment
  · have huses := h.uses found
    simp only [Layout.uses, foldl_refer, get?_setSegment] at huses ⊢
    split
    case isTrue hkey =>
      subst hkey
      rw [(requireSegment_eq_ok.mp hcurrent).2, (requireSegment_eq_ok.mp hcurrent').2] at huses
      rw [(requireSegment_eq_ok.mp hcurrent).2, (requireSegment_eq_ok.mp hcurrent').2, h.address]
      refine List.append_subset.mpr ⟨List.subset_append_of_subset_left _ huses, ?_⟩
      refine List.subset_append_of_subset_right _ (List.map_subset _ ?_)
      exact List.filter_subset _ hnames
    case isFalse => exact huses
  · have hold := h.unreserved found
    simp only [Layout.uses, get?_setSegment] at hold hreference
    split at hreference
    case isTrue hkey =>
      subst hkey
      rw [(requireSegment_eq_ok.mp hcurrent).2] at hold hreference
      rcases List.mem_append.mp hreference with hbefore | hadded
      · exact hold reference hbefore
      · obtain ⟨name, hname, rfl⟩ := List.mem_map.mp hadded
        simpa using (List.mem_filter.mp hname).2
    case isFalse => exact hold reference hreference

/-- An operation that refers to no label is laid out alike. -/
theorem placeOperation (h : layout.Sheds other) {environment : Environment}
    {calls : List MacroCall} {location : Location} {operation : Operation}
    (hsilent : operation.refers = false) {placed : PlacedOperation} {size : Nat}
    (hplaced : placeOperation environment calls location layout operation =
      .ok (placed, size, next)) :
    ∃ next', Asm65816.placeOperation environment calls location other operation =
        .ok (placed, size, next') ∧ next.Sheds next' := by
  have hview : (Asm65816.placeOperation environment calls location other operation).map
        (fun found => (found.1, found.2.1, found.2.2.unreferred)) =
      (Asm65816.placeOperation environment calls location layout operation).map fun found =>
        (found.1, found.2.1, found.2.2.unreferred) := by
    rw [← placeOperation_unreferred _ _ _ _ hsilent, ← placeOperation_unreferred _ _ _ _ hsilent,
      h.unreferred]
  obtain ⟨⟨placed', size', next'⟩, hplaced', hsame⟩ := exists_of_map_eq hview hplaced
  obtain ⟨rfl, rfl, hnext⟩ : placed' = placed ∧ size' = size ∧ next'.unreferred = next.unreferred :=
    by simpa only [Prod.mk.injEq] using hsame
  exact ⟨next', hplaced', h.of_uses hnext (placeOperation_uses hsilent hplaced)
    (placeOperation_uses hsilent hplaced')⟩

/-- Moving on behind an operation. -/
theorem occupy (h : layout.Sheds other) {size : Nat} (hoccupy : layout.occupy size = .ok next) :
    ∃ next', other.occupy size = .ok next' ∧ next.Sheds next' := by
  have hview : (other.occupy size).map Layout.unreferred =
      (layout.occupy size).map Layout.unreferred := by
    rw [← occupy_unreferred, ← occupy_unreferred, h.unreferred]
  obtain ⟨next', hnext', hsame⟩ := exists_of_map_eq hview hoccupy
  exact ⟨next', hnext', h.of_uses hsame (uses_occupy hoccupy) (uses_occupy hnext')⟩

end Layout.Sheds

end Asm65816
