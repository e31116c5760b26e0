import Asm65816.Proofs.EmissionFaults
import Asm65816.Proofs.Walk

/-!
# Agreement of the two walks

The second walk starts from the last layout of the first one, rewound. It has all segments from
the beginning, and each of them goes on where it had come to in the first walk at the same event.
This relation is kept by every event, so that both walks are at the same place throughout, every
operation has the size it was given, and no segment is missing or full for the first time.
-/

namespace Asm65816

namespace Layout

/-- Every segment of one layout is in the other with the same name and range. -/
def Within (layout final : Layout) : Prop :=
  ∀ key outline, layout.outline? key = some outline →
    ∃ resume, final.outline? key = some { outline with resume := resume }

/-- Where the code of a segment goes on, for a segment that starts at `start`. -/
def resumption (layout : Layout) (key : String) (start : Int) : Int :=
  ((layout.outline? key).map Outline.resume).getD start

/-- The second walk to the layout `final` is at the place where the first one was with the layout
`first`. -/
structure Follows (final first second : Layout) : Prop where
  cursor : second.cursor = first.cursor
  flow : second.flow = final.flow
  keys : second.keys = final.keys
  outline : ∀ key, second.outline? key = (final.outline? key).map fun outline =>
    { outline with resume := first.resumption key outline.start }

namespace Within

/-- A layout has its own segments. -/
theorem refl (layout : Layout) : Within layout layout := fun _ outline h => ⟨outline.resume, h⟩

/-- Segments are handed on. -/
theorem trans {first second third : Layout} (h : Within first second) (h' : Within second third) :
    Within first third := by
  intro key outline hfirst
  obtain ⟨resume, hsecond⟩ := h key outline hfirst
  obtain ⟨later, hthird⟩ := h' key _ hsecond
  exact ⟨later, hthird⟩

/-- Layouts with the same outlines have the same segments. -/
theorem of_outline {first second : Layout} (h : ∀ key, second.outline? key = first.outline? key) :
    Within first second := by
  intro key outline hfirst
  exact ⟨outline.resume, (h key).trans hfirst⟩

end Within

/-! ## Moving on -/

/-- Moving on takes the address and the resumption of the current segment along. -/
theorem advance_shared {layout next : Layout} {size : Nat} (h : layout.advance size = .ok next) :
    next.cursor = { layout.cursor with address := layout.address + size } ∧
      next.flow = layout.flow ∧ next.keys = layout.keys ∧
      ∀ key, next.outline? key =
        if layout.current = some key then
          (layout.outline? key).map fun outline =>
            { outline with resume := layout.address + size }
        else layout.outline? key := by
  obtain ⟨current, segment, hcurrent, -, rfl⟩ := advance_eq_ok.mp h
  obtain ⟨hname, hfound⟩ := requireSegment_eq_ok.mp hcurrent
  refine ⟨rfl, rfl, Table.map_fst_alter _ _ _, fun key => ?_⟩
  have hget := get?_setSegment layout current key
    { segment with resume := layout.address + size }
  simp only [outline?, hname, Option.some.injEq]
  rw [show Table.get? _ key = _ from hget]
  split
  case isTrue hkey =>
    subst hkey
    rw [hfound]
    rfl
  case isFalse => rfl

/-- Moving on succeeds exactly when the outline of the current segment has room. -/
theorem advance_isOk_iff {layout : Layout} {size : Nat} :
    (∃ next, layout.advance size = .ok next) ↔
      ∃ key outline, layout.current = some key ∧ layout.outline? key = some outline ∧
        layout.address + size ≤ outline.start + outline.size := by
  constructor
  · rintro ⟨next, h⟩
    obtain ⟨key, segment, hcurrent, hroom, -⟩ := advance_eq_ok.mp h
    obtain ⟨hname, hfound⟩ := requireSegment_eq_ok.mp hcurrent
    exact ⟨key, segment.outline, hname, by rw [outline?, hfound, Option.map_some], hroom⟩
  · rintro ⟨key, outline, hname, hfound, hroom⟩
    obtain ⟨segment, hsegment, rfl⟩ := Option.map_eq_some_iff.mp hfound
    exact ⟨_, advance_eq_ok.mpr
      ⟨key, segment, requireSegment_eq_ok.mpr ⟨hname, hsegment⟩, hroom, rfl⟩⟩

/-- Moving on keeps the segments. -/
theorem advance_within {layout next : Layout} {size : Nat} (h : layout.advance size = .ok next) :
    Within layout next := by
  obtain ⟨-, -, -, houtline⟩ := advance_shared h
  intro key outline hlayout
  rw [houtline key, hlayout]
  split
  · exact ⟨_, rfl⟩
  · exact ⟨_, rfl⟩

/-- Taking up the size of an operation keeps the segments. -/
theorem occupy_within {layout next : Layout} {size : Nat} (h : layout.occupy size = .ok next) :
    Within layout next := by
  obtain ⟨-, rfl⟩ | ⟨-, h⟩ := occupy_eq_ok.mp h
  · exact .refl _
  · exact advance_within h

/-- A new segment is found under its name, and the others as before. -/
theorem outline?_addSegment {layout next : Layout} {segment : Segment}
    (h : layout.addSegment segment = .ok next) (key : String) :
    next.outline? key =
      if upperText segment.name = key then some segment.outline else layout.outline? key := by
  obtain ⟨-, rfl⟩ := addSegment_eq_ok.mp h
  simp only [outline?, Table.get?_put]
  split
  · rfl
  · rfl

/-- Laying out an operation keeps the segments. -/
theorem moves_within {location : Location} {layout next : Layout} {placed : PlacedOperation}
    (h : placed.Moves location layout next) : Within layout next := by
  cases placed with
  | createSegment name start size fileOffset =>
    intro key outline hlayout
    rw [outline?_addSegment h]
    split
    case isTrue hkey =>
      obtain ⟨hfree, -⟩ := addSegment_eq_ok.mp h
      rw [outline?, ← hkey, hfree] at hlayout
      cases hlayout
    case isFalse => exact ⟨_, hlayout⟩
  | changeSegment name =>
    obtain ⟨segment, -, rfl⟩ := enter_eq_ok.mp h
    exact .refl _
  | setOrigin address =>
    obtain ⟨-, rfl⟩ := h
    exact .refl _
  | setWidth register wide =>
    obtain rfl := h
    cases register
    · exact .refl _
    · exact .refl _
  | flow step number =>
    obtain ⟨-, hnext⟩ := h
    rw [hnext]
    exact .refl _
  | _ => exact .of_outline (Alike.outline h)

namespace Follows

variable {final first second : Layout}

/-- Before any event the second walk is where the first one began. -/
theorem initial (final : Layout) : Follows final Layout.empty final.rewind := by
  refine ⟨rfl, rfl, ?_, fun key => ?_⟩
  · change (final.segments.map _).map Prod.fst = _
    rw [List.map_map]
    rfl
  · have hget := Table.get?_map final.segments
      (fun segment : Segment => { segment.clear with resume := segment.start }) key
    rw [outline?, show Table.get? final.rewind.segments key = _ from hget, outline?,
      Option.map_map, Option.map_map]
    rfl

/-- Only the shared part of the first layout counts. -/
theorem of_alike {next : Layout} (h : Follows final first second) (halike : next.Alike first) :
    Follows final next second := by
  refine ⟨h.cursor.trans halike.cursor.symm, h.flow, h.keys, fun key => ?_⟩
  simp only [h.outline key, resumption, halike.outline key]

/-- Only the shared part of the second layout counts. -/
theorem second_alike {next : Layout} (h : Follows final first second) (halike : next.Alike second) :
    Follows final first next :=
  ⟨halike.cursor.trans h.cursor, halike.flow.trans h.flow, halike.keys.trans h.keys,
    fun key => (halike.outline key).trans (h.outline key)⟩

/-- Both walks are in the same segment. -/
theorem current (h : Follows final first second) : second.current = first.current :=
  congrArg Cursor.current h.cursor

/-- Both walks are at the same address. -/
theorem address (h : Follows final first second) : second.address = first.address :=
  congrArg Cursor.address h.cursor

/-- Both walks have the same register widths. -/
theorem widths (h : Follows final first second) : second.widths = first.widths :=
  congrArg Cursor.widths h.cursor

/-- A segment that the first walk knows looks the same in the second one. -/
theorem outline_of_first (h : Follows final first second) (hwithin : Within first final)
    {key : String} {outline : Outline} (hfirst : first.outline? key = some outline) :
    second.outline? key = some outline := by
  obtain ⟨resume, hfinal⟩ := hwithin key outline hfirst
  rw [h.outline key, hfinal, Option.map_some, resumption, hfirst]
  rfl

/-- The second walk can move on when the first one could, and they stay together. -/
theorem advance {next : Layout} {size : Nat} (h : Follows final first second)
    (hwithin : Within first final) (hfirst : first.advance size = .ok next) :
    ∃ reached, second.advance size = .ok reached ∧ Follows final next reached := by
  obtain ⟨key, outline, hcurrent, hfound, hroom⟩ := advance_isOk_iff.mp ⟨next, hfirst⟩
  have hsecond := h.outline_of_first hwithin hfound
  obtain ⟨reached, hreached⟩ : ∃ reached, second.advance size = .ok reached :=
    advance_isOk_iff.mpr ⟨key, outline, h.current.trans hcurrent, hsecond, by rwa [h.address]⟩
  refine ⟨reached, hreached, ?_⟩
  obtain ⟨hcursor, -, -, houtline⟩ := advance_shared hfirst
  obtain ⟨hcursor', hflow', hkeys', houtline'⟩ := advance_shared hreached
  refine ⟨?_, hflow'.trans h.flow, hkeys'.trans h.keys, fun other => ?_⟩
  · rw [hcursor', hcursor, h.cursor, h.address]
  · simp only [houtline' other, resumption, houtline other, h.current, hcurrent]
    by_cases hother : some key = some other
    · obtain rfl := Option.some.inj hother
      obtain ⟨resume, hfinal⟩ := hwithin key outline hfound
      simp only [if_true, hsecond, hfound, hfinal, h.address, Option.map_some, Option.getD_some]
    · simp only [if_neg hother, h.outline other, resumption]

end Follows

/-! ## Placing bytes -/

/-- Without bytes nothing is placed. -/
theorem place_nil (layout : Layout) : layout.place [] = .ok layout := rfl

/-- Placing bytes writes them into the current segment and moves on, unless an address is taken. -/
theorem place_eq {layout : Layout} {key : String} {segment : Segment} {bytes : List UInt8}
    (hbytes : bytes ≠ []) (hcurrent : layout.requireSegment = .ok (key, segment)) :
    layout.place bytes =
      match segment.bytes.write layout.address bytes with
      | (_, some taken) => .error (.byteOverlap segment.name taken)
      | (written, none) =>
        (layout.setSegment key { segment with bytes := written }).advance bytes.length := by
  unfold place
  rw [if_neg (by simpa using hbytes), hcurrent, ok_bind]
  dsimp only
  unfold Segment.write
  rcases segment.bytes.write layout.address bytes with ⟨written, _ | taken⟩
  · rfl
  · rfl

/-- Bytes as many as the first walk moved on by are placed without contradicting the layout, and
the walks stay together. -/
theorem Follows.place {final first second next : Layout} {bytes : List UInt8}
    (h : Follows final first second) (hwithin : Within first final)
    (hoccupy : first.occupy bytes.length = .ok next) :
    Consistent (second.place bytes) ∧
      ∀ reached, second.place bytes = .ok reached → Follows final next reached := by
  obtain ⟨hempty, rfl⟩ | ⟨hbytes, hoccupy⟩ := occupy_eq_ok.mp hoccupy
  · rw [List.eq_nil_of_length_eq_zero hempty, place_nil]
    refine ⟨.ok _, fun reached hreached => ?_⟩
    cases hreached
    exact h
  · obtain ⟨unwritten, hunwritten, -⟩ := h.advance hwithin hoccupy
    obtain ⟨key, segment, hcurrent, -, -⟩ := advance_eq_ok.mp hunwritten
    rw [place_eq (fun hnil => hbytes (by rw [hnil, List.length_nil])) hcurrent]
    rcases segment.bytes.write second.address bytes with ⟨written, _ | taken⟩
    · have halike : (second.setSegment key { segment with bytes := written }).Alike second :=
        setCurrent_alike hcurrent rfl
      obtain ⟨reached, hreached, hfollows⟩ := (h.second_alike halike).advance hwithin hoccupy
      dsimp only
      rw [hreached]
      refine ⟨.ok _, fun found hfound => ?_⟩
      cases hfound
      exact hfollows
    · exact ⟨.error rfl, fun reached hreached => by cases hreached⟩

end Layout

/-! ## One operation in both walks -/

/-- What emitting an operation makes of a layout, before its bytes are placed. -/
def PlacedOperation.Enters (layout next : Layout) : PlacedOperation → Prop
  | .changeSegment name => layout.enter name = .ok next
  | .setOrigin address => next = { layout with address := address }
  | .setWidth register wide => next = layout.setWidth register wide
  | _ => next = layout

/-- Emitting an operation takes the layout to where the operation says. -/
theorem emitOperation_enters {labels : List Resolution} {layout : Layout}
    {operation : PlacedOperation} {emitted : Emitted}
    (h : emitOperation labels layout operation = .ok emitted) :
    operation.Enters layout emitted.layout := by
  unfold emitOperation at h
  cases operation with
  | changeSegment name =>
    obtain ⟨entered, hentered, h⟩ := bind_eq_ok.mp h
    obtain ⟨found, -, h⟩ := bind_eq_ok.mp h
    cases h
    exact hentered
  | setOrigin address =>
    obtain ⟨found, -, h⟩ := bind_eq_ok.mp h
    cases h
    rfl
  | setWidth register wide =>
    cases h
    rfl
  | instruction encoding =>
    obtain ⟨bytes, -, h⟩ := bind_eq_ok.mp h
    cases h
    rfl
  | data width operands =>
    obtain ⟨code, -, h⟩ := bind_eq_ok.mp h
    cases h
    rfl
  | fill wide count operand =>
    obtain ⟨number, -, h⟩ := bind_eq_ok.mp h
    obtain ⟨code, -, h⟩ := bind_eq_ok.mp h
    cases h
    rfl
  | flow step frame =>
    obtain ⟨code, -, h⟩ := bind_eq_ok.mp h
    cases h
    rfl
  | _ =>
    cases h
    rfl

namespace Layout.Follows

variable {final first second : Layout}

/-- A segment is entered at the same address in both walks. -/
theorem enter {next : Layout} {name : String} (h : Follows final first second)
    (hwithin : Within first final) (hfirst : first.enter name = .ok next) :
    ∃ entered, second.enter name = .ok entered ∧ Follows final next entered := by
  obtain ⟨segment, hsegment, rfl⟩ := enter_eq_ok.mp hfirst
  have hfound : first.outline? (upperText name) = some segment.outline := by
    rw [outline?, hsegment, Option.map_some]
  obtain ⟨found, hsecond, houtline⟩ :=
    Option.map_eq_some_iff.mp (h.outline_of_first hwithin hfound)
  refine ⟨_, enter_eq_ok.mpr ⟨found, hsecond, rfl⟩, ?_, h.flow, h.keys, h.outline⟩
  have hresume : found.resume = segment.resume := congrArg Outline.resume houtline
  simp only [Layout.cursor, hresume, h.widths]

/-- An operation takes both walks to the same place. -/
theorem moves {location : Location} {next entered : Layout} {placed : PlacedOperation}
    (h : Follows final first second) (hmoves : placed.Moves location first next)
    (hwithin : Within next final) (henters : placed.Enters second entered) :
    Follows final next entered := by
  cases placed with
  | createSegment name start size fileOffset =>
    obtain rfl := henters
    obtain ⟨hfree, hnext⟩ := addSegment_eq_ok.mp hmoves
    have hadded := outline?_addSegment hmoves
    refine ⟨h.cursor.trans (by rw [hnext]; rfl), h.flow, h.keys, fun key => ?_⟩
    rw [h.outline key]
    by_cases hkey : upperText name = key
    · -- The new segment goes on at its start, as it would have without being known.
      have hnew := (hadded key).trans (if_pos hkey)
      obtain ⟨resume, hfinal⟩ := hwithin key _ hnew
      have hunknown : first.outline? key = none := by
        rw [outline?, ← hkey]
        exact congrArg (Option.map Segment.outline) hfree
      simp only [resumption, hnew, hunknown, hfinal]
      rfl
    · simp only [resumption, (hadded key).trans (if_neg hkey)]
  | changeSegment name =>
    obtain ⟨reached, hreached, hfollows⟩ :=
      h.enter ((moves_within hmoves).trans hwithin) hmoves
    obtain rfl := Except.ok.inj (hreached.symm.trans henters)
    exact hfollows
  | setOrigin address =>
    obtain ⟨-, rfl⟩ := hmoves
    obtain rfl := henters
    refine ⟨?_, h.flow, h.keys, h.outline⟩
    simp only [Layout.cursor, h.current, h.widths]
  | setWidth register wide =>
    obtain rfl := hmoves
    obtain rfl := henters
    cases register
    all_goals
      refine ⟨?_, h.flow, h.keys, h.outline⟩
      simp only [Layout.cursor, setWidth, h.current, h.address, h.widths]
  | flow step number =>
    obtain ⟨-, hnext⟩ := hmoves
    obtain rfl := henters
    rw [hnext]
    exact ⟨h.cursor, h.flow, h.keys, h.outline⟩
  | _ =>
    obtain rfl := henters
    exact h.of_alike hmoves

/-- The second walk has a current segment when the first one had. -/
theorem requireSegment {key : String} {segment : Segment} (h : Follows final first second)
    (hwithin : Within first final) (hfirst : first.requireSegment = .ok (key, segment)) :
    ∃ found, second.requireSegment = .ok (key, found) ∧ found.outline = segment.outline := by
  obtain ⟨hcurrent, hsegment⟩ := requireSegment_eq_ok.mp hfirst
  have hfound : first.outline? key = some segment.outline := by
    rw [outline?, hsegment, Option.map_some]
  obtain ⟨found, hsecond, houtline⟩ :=
    Option.map_eq_some_iff.mp (h.outline_of_first hwithin hfound)
  exact ⟨found, requireSegment_eq_ok.mpr ⟨h.current.trans hcurrent, hsecond⟩, houtline⟩

/-- An operation keeps the walks together, and the second one can only fail in it without
contradicting the layout. -/
theorem operation {location : Location} {mid next : Layout} {placed : PlacedOperation}
    {emission : Emission} (labels : List Resolution) (h : Follows final first emission.layout)
    (hmoves : placed.Moves location first mid) (hoccupy : mid.occupy placed.length = .ok next)
    (hwithin : Within next final) :
    Consistent (emission.operation labels placed placed.length) ∧
      ∀ reached, emission.operation labels placed placed.length = .ok reached →
        Follows final next reached.layout := by
  have hmid : Within mid final := (occupy_within hoccupy).trans hwithin
  have hfirst : Within first final := (moves_within hmoves).trans hmid
  have hplace (emitted : Emitted)
      (hemitted : emitOperation labels emission.layout placed = .ok emitted) :
      Consistent (emitted.layout.place emitted.code.bytes) ∧
        ∀ reached, emitted.layout.place emitted.code.bytes = .ok reached →
          Follows final next reached := by
    rw [← emitOperation_length hemitted] at hoccupy
    exact (h.moves hmoves hmid (emitOperation_enters hemitted)).place hmid hoccupy
  constructor
  · have hemit : Consistent (emitOperation labels emission.layout placed) := by
      refine emitOperation_consistent ?_ ?_
      · rintro name rfl
        obtain ⟨entered, hentered, -⟩ := h.enter hfirst hmoves
        exact ⟨entered, hentered⟩
      · rintro address rfl
        obtain ⟨⟨⟨key, segment⟩, hcurrent⟩, -⟩ := hmoves
        obtain ⟨found, hfound, -⟩ := h.requireSegment hfirst hcurrent
        exact ⟨(key, found), hfound⟩
    intro fault hfault
    rcases bind_eq_error.mp hfault with hfault | ⟨emitted, hemitted, hfault⟩
    · exact hemit fault hfault
    · rw [emitOperation_length hemitted, if_neg (not_not_intro rfl)] at hfault
      rcases bind_eq_error.mp hfault with hfault | ⟨reached, -, hfault⟩
      · exact (hplace emitted hemitted).1 fault hfault
      · cases hfault
  · intro reached hreached
    obtain ⟨emitted, hemitted, -, layout, hlayout, rfl⟩ := operation_eq_ok.mp hreached
    exact (hplace emitted hemitted).2 layout hlayout

end Layout.Follows

/-! ## All events -/

/-- What an event of the first walk does to the layout. -/
inductive EventMove : Layout → Event → Layout → Prop where
  | operation {layout mid next : Layout} {placed : PlacedOperation} {location : Location}
      (moves : placed.Moves location layout mid)
      (occupies : mid.occupy placed.length = .ok next) :
      EventMove layout (.operation placed placed.length location) next
  | enter (layout : Layout) (call : Option String) (location : Location) :
      EventMove layout (.enter call location) layout
  | leave (layout : Layout) (location : Location) : EventMove layout (.leave location) layout

/-- Every task does one event. -/
theorem Task.advance_move {environment : Environment} {task : Task} {layout next : Layout}
    {event : Event} {more : List Task}
    (h : task.advance environment layout = .ok (event, next, more)) :
    EventMove layout event next := by
  cases task with
  | leave location =>
    cases h
    exact .leave _ _
  | action calls action =>
    cases action with
    | operation operation location =>
      simp only [Task.advance, bind_eq_ok, pure_eq_ok, failingAt_eq_ok] at h
      obtain ⟨⟨placed, size, mid⟩, hplaced, reached, hreached, h⟩ := h
      cases h
      obtain ⟨hmoves, rfl⟩ := placeOperation_moves hplaced
      exact .operation hmoves hreached
    | callMacro name operands location =>
      simp only [Task.advance, bind_eq_ok, pure_eq_ok] at h
      obtain ⟨_, -, h⟩ := h
      cases h
      exact .enter _ _ _
    | conditional arms location =>
      simp only [Task.advance, bind_eq_ok, pure_eq_ok] at h
      obtain ⟨_, -, h⟩ := h
      cases h
      exact .enter _ _ _
    | argumentLoop body location =>
      cases calls with
      | nil => cases h
      | cons call outer =>
        cases h
        exact .enter _ _ _

/-- An event keeps the segments. -/
theorem EventMove.within {layout next : Layout} {event : Event} (h : EventMove layout event next) :
    layout.Within next := by
  cases h with
  | operation moves occupies =>
    exact (Layout.moves_within moves).trans (Layout.occupy_within occupies)
  | enter call location => exact .refl _
  | leave location => exact .refl _

/-- An event keeps the walks together, and the second one can only fail in it without
contradicting the layout. -/
theorem EventMove.follows {final first next : Layout} {event : Event} {emission : Emission}
    (labels : List Resolution) (hevent : EventMove first event next)
    (hwithin : next.Within final) (h : final.Follows first emission.layout) :
    (∀ failure, emission.event labels event = .error failure →
        failure.fault.contradictsLayout = false) ∧
      ∀ reached, emission.event labels event = .ok reached → final.Follows next reached.layout := by
  cases hevent with
  | operation moves occupies =>
    obtain ⟨hconsistent, hfollows⟩ := h.operation labels moves occupies hwithin
    constructor
    · intro failure hfailure
      exact hconsistent _ (failingAt_eq_error.mp hfailure).1
    · intro reached hreached
      exact hfollows reached (failingAt_eq_ok.mp hreached)
  | enter call location =>
    refine ⟨fun failure hfailure => (by cases hfailure), fun reached hreached => ?_⟩
    cases hreached
    cases call
    · exact h
    · exact h
  | leave location =>
    refine ⟨fun failure hfailure => (by cases hfailure), fun reached hreached => ?_⟩
    cases hreached
    exact h

/-- A run of the first walk keeps the segments. -/
theorem FirstWalk.within {environment : Environment} {layout last : Layout} {tasks : List Task}
    {trace : List (Layout × Event)} (walk : FirstWalk environment layout tasks trace last) :
    layout.Within last := by
  induction walk with
  | done layout => exact .refl _
  | step advanced rest ih => exact (Task.advance_move advanced).within.trans ih

/-- The first walk gives every operation its length as size. -/
theorem FirstWalk.size_eq_length {environment : Environment} {layout last found : Layout}
    {tasks : List Task} {trace : List (Layout × Event)} {operation : PlacedOperation} {size : Nat}
    {location : Location} (walk : FirstWalk environment layout tasks trace last)
    (h : (found, Event.operation operation size location) ∈ trace) : size = operation.length := by
  induction walk with
  | done layout => cases h
  | step advanced rest ih =>
    rcases List.mem_cons.mp h with hhead | htail
    · obtain ⟨rfl, rfl⟩ := Prod.mk.inj hhead
      cases Task.advance_move advanced with
      | operation moves occupies => rfl
    · exact ih htail

/-- After any part of the events the second walk is where the first one was. -/
theorem FirstWalk.follows {environment : Environment} {final first found : Layout}
    {tasks : List Task} {trace before after : List (Layout × Event)} {event : Event}
    {labels : List Resolution} {emission reached : Emission}
    (walk : FirstWalk environment first tasks trace final)
    (h : final.Follows first emission.layout) (htrace : trace = before ++ (found, event) :: after)
    (hbefore : emitEvents labels emission (before.map Prod.snd) = .ok reached) :
    final.Follows found reached.layout := by
  induction walk generalizing before emission with
  | done layout => simp at htrace
  | step advanced rest ih =>
    cases before with
    | nil =>
      cases htrace
      cases hbefore
      exact h
    | cons entry before =>
      cases htrace
      simp only [List.map_cons, emitEvents, List.foldlM_cons, bind_eq_ok] at hbefore
      obtain ⟨next, hnext, hbefore⟩ := hbefore
      have hmove := Task.advance_move advanced
      exact ih ((hmove.follows labels rest.within h).2 next hnext) rfl hbefore

/-- At the end of the events the second walk is where the first one ended. -/
theorem FirstWalk.follows_last {environment : Environment} {final first : Layout}
    {tasks : List Task} {trace : List (Layout × Event)} {labels : List Resolution}
    {emission last : Emission} {deposits : List Deposit}
    (walk : FirstWalk environment first tasks trace final)
    (h : final.Follows first emission.layout)
    (second : SecondWalk labels emission (trace.map Prod.snd) deposits last) :
    final.Follows final last.layout := by
  have hlast := emitEvents_eq_ok.mpr ⟨deposits, second⟩
  clear second
  induction walk generalizing emission with
  | done layout =>
    cases hlast
    exact h
  | step advanced rest ih =>
    simp only [List.map_cons, emitEvents, List.foldlM_cons, bind_eq_ok] at hlast
    obtain ⟨next, hnext, hlast⟩ := hlast
    exact ih (((Task.advance_move advanced).follows labels rest.within h).2 next hnext) hlast

/-- The second walk only fails without contradicting the layout. -/
theorem FirstWalk.consistent {environment : Environment} {final first : Layout}
    {tasks : List Task} {trace : List (Layout × Event)} {labels : List Resolution}
    {emission : Emission} {failure : Failure}
    (walk : FirstWalk environment first tasks trace final)
    (h : final.Follows first emission.layout)
    (hfailure : emitEvents labels emission (trace.map Prod.snd) = .error failure) :
    failure.fault.contradictsLayout = false := by
  induction walk generalizing emission with
  | done layout => cases hfailure
  | step advanced rest ih =>
    simp only [List.map_cons, emitEvents, List.foldlM_cons] at hfailure
    obtain ⟨hfails, hfollows⟩ := (Task.advance_move advanced).follows labels rest.within h
    rcases bind_eq_error.mp hfailure with hfailure | ⟨next, hnext, hfailure⟩
    · exact hfails failure hfailure
    · exact ih (hfollows next hnext) hfailure

/-- The two walks agree, whatever the labels are resolved to. The second walk takes the events of
the first one in the same order; before each of them it has the same segment, address and register
widths, and every operation that it emits has as many bytes as it was laid out with. A failure of
the second walk never says that a size differs, that a segment is full, missing or unknown, or
that an addressing mode is unknown. -/
theorem walks_agree {environment : Environment} {actions : List Action} {steps : List Step}
    {layout : Layout} (labels : List Resolution)
    (hlayout : layoutProgram environment actions = .ok (steps, layout)) :
    ∃ trace, FirstWalk environment Layout.empty (bodyTasks [] actions) trace layout ∧
      emitProgram layout labels steps =
        emitEvents labels (Emission.initial layout) (trace.map Prod.snd) ∧
      (∀ before found event after emission, trace = before ++ (found, event) :: after →
        emitEvents labels (Emission.initial layout) (before.map Prod.snd) = .ok emission →
          emission.layout.cursor = found.cursor ∧
          ∀ operation size location, event = .operation operation size location →
            ∀ emitted, emitOperation labels emission.layout operation = .ok emitted →
              emitted.code.bytes.length = size) ∧
      ∀ failure, emitProgram layout labels steps = .error failure →
        failure.fault.contradictsLayout = false := by
  obtain ⟨-, trace, htrace, walk⟩ := layoutProgram_firstWalk hlayout
  have hinitial : layout.Follows Layout.empty (Emission.initial layout).layout :=
    .initial layout
  have hemit : emitProgram layout labels steps =
      emitEvents labels (Emission.initial layout) (trace.map Prod.snd) := by
    rw [htrace, emitProgram_eq_emitEvents]
  refine ⟨trace, walk, hemit, ?_, ?_⟩
  · intro before found event after emission hsplit hbefore
    refine ⟨(walk.follows hinitial hsplit hbefore).cursor, ?_⟩
    rintro operation size location rfl emitted hemitted
    rw [emitOperation_length hemitted]
    have hmem : (found, Event.operation operation size location) ∈ trace := by
      rw [hsplit]
      simp
    exact (walk.size_eq_length hmem).symm
  · intro failure hfailure
    exact walk.consistent hinitial (hemit ▸ hfailure)

/-- Agreement on a loop whose body is the call of a macro. -/
theorem walks_agree_macroLoop :
    ∃ result, layoutProgram
        ⟨[("PAUSE", ⟨[], false, [.operation (.instruction "NOP" []) default]⟩)], [],
          ⟨.ofTable [], []⟩⟩
        [.operation (.createSegment "code" 0x8000 0x100 0) default,
          .operation (.changeSegment "code") default, .operation (.flow .loopStart) default,
          .callMacro "PAUSE" [] default, .operation (.flow .loopForever) default] = .ok result ∧
      ∃ trace : List (Layout × Event), emitProgram result.2 [] result.1 =
          emitEvents [] (Emission.initial result.2) (trace.map Prod.snd) ∧
        ∀ before found event after emission, trace = before ++ (found, event) :: after →
          emitEvents [] (Emission.initial result.2) (before.map Prod.snd) = .ok emission →
            emission.layout.cursor = found.cursor := by
  refine (exists_of_isOk ?_).imp fun result hlayout => ⟨hlayout, ?_⟩
  · decide +kernel
  · obtain ⟨trace, -, hemit, hplaces, -⟩ := walks_agree [] hlayout
    exact ⟨trace, hemit, fun before found event after emission hsplit hbefore =>
      (hplaces before found event after emission hsplit hbefore).1⟩

end Asm65816
