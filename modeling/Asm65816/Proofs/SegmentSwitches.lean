import Asm65816.Proofs.WalkHistory

/-!
# Leaving a segment and coming back

The position in a segment is kept twice: by the cursor while the segment is current, and by the
segment itself, which remembers where its code goes on. Placing code moves both and entering a
segment takes the cursor to the remembered address, but an origin moves the cursor alone. So a
segment that is left and entered again goes on where the cursor was, unless an origin was set there
that no code has followed: this origin is lost. Both walks move in the same ways, and the law is the
same for both.
-/

namespace Asm65816

/-- The segment that an event enters. -/
def Event.enters? : Event → Option String
  | .operation (.changeSegment name) _ _ => some (upperText name)
  | _ => none

/-- Whether an origin without code after it is set behind an event, when one was set or not set
before it. -/
def Event.leavesOrigin (pending : Bool) : Event → Bool
  | .operation (.setOrigin _) 0 _ => true
  | .operation (.changeSegment _) _ _ => false
  | .operation _ size _ => pending && size == 0
  | _ => pending

/-- Whether the last origin of the current segment has no code after it. -/
def originPending (events : List Event) : Bool := events.foldl Event.leavesOrigin false

namespace Layout

/-- Every segment of one layout goes on at the same address in the other. -/
def Resumes (layout next : Layout) : Prop :=
  ∀ key outline, layout.outline? key = some outline → next.outline? key = some outline

theorem Resumes.of_outline {layout next : Layout}
    (h : ∀ key, next.outline? key = layout.outline? key) : layout.Resumes next :=
  fun key _ houtline => (h key).trans houtline

/-- The cursor stands in a segment, at the address where its code goes on unless an origin is
pending. -/
def Stands (pending : Bool) (layout : Layout) : Prop :=
  ∀ key, layout.current = some key → ∃ outline, layout.outline? key = some outline ∧
    (pending = false → layout.address = outline.resume)

end Layout

/-! ## What an event does in either walk -/

/-- How an event moves the cursor and the addresses where segments go on. -/
inductive Shift (layout next : Layout) : Event → Prop where
  | enter {name : String} {location : Location} {outline : Outline}
      (found : layout.outline? (upperText name) = some outline)
      (current : next.current = some (upperText name)) (address : next.address = outline.resume)
      (resumes : layout.Resumes next) :
      Shift layout next (.operation (.changeSegment name) 0 location)
  | origin {origin : Int} {location : Location} (current : next.current = layout.current)
      (resumes : layout.Resumes next) :
      Shift layout next (.operation (.setOrigin origin) 0 location)
  | code {placed : PlacedOperation} {size : Nat} {location : Location} {key : String}
      {outline : Outline} (sized : size ≠ 0) (current : layout.current = some key)
      (stays : next.current = some key)
      (resumes : next.outline? key = some { outline with resume := next.address })
      (others : ∀ other outline, other ≠ key → layout.outline? other = some outline →
        next.outline? other = some outline) :
      Shift layout next (.operation placed size location)
  | still {event : Event} (unentered : event.enters? = none)
      (keeps : ∀ pending, event.leavesOrigin pending = pending)
      (current : next.current = layout.current) (address : next.address = layout.address)
      (resumes : layout.Resumes next) : Shift layout next event

namespace Shift

variable {layout mid next : Layout} {event : Event}

/-- The cursor stands where the code goes on unless an origin is pending. -/
theorem stands (h : Shift layout next event) {pending : Bool} (hstands : layout.Stands pending) :
    next.Stands (event.leavesOrigin pending) := by
  intro key hkey
  cases h with
  | enter found current address resumes =>
    obtain rfl := Option.some.inj (current.symm.trans hkey)
    exact ⟨_, resumes _ _ found, fun _ => address⟩
  | origin current resumes =>
    obtain ⟨outline, houtline, -⟩ := hstands key (current.symm.trans hkey)
    exact ⟨outline, resumes key outline houtline, fun hnone => by cases hnone⟩
  | code sized current stays resumes others =>
    obtain rfl := Option.some.inj (stays.symm.trans hkey)
    exact ⟨_, resumes, fun _ => rfl⟩
  | still unentered keeps current address resumes =>
    obtain ⟨outline, houtline, haddress⟩ := hstands key (current.symm.trans hkey)
    refine ⟨outline, resumes key outline houtline, fun hnone => ?_⟩
    rw [address, haddress ((keeps pending).symm.trans hnone)]

/-- A segment that is not current and is not entered goes on where it did. -/
theorem away (h : Shift layout next event) {key : String} {outline : Outline}
    (hcurrent : layout.current ≠ some key) (hevent : event.enters? ≠ some key)
    (houtline : layout.outline? key = some outline) :
    next.current ≠ some key ∧ next.outline? key = some outline := by
  cases h with
  | enter found current address resumes =>
    exact ⟨current ▸ hevent, resumes key outline houtline⟩
  | origin current resumes => exact ⟨current ▸ hcurrent, resumes key outline houtline⟩
  | code sized current stays resumes others =>
    rw [current] at hcurrent
    refine ⟨stays ▸ hcurrent, others key outline (fun heq => ?_) houtline⟩
    exact hcurrent (congrArg some heq.symm)
  | still unentered keeps current address resumes =>
    exact ⟨current ▸ hcurrent, resumes key outline houtline⟩

/-- An operation that leaves the cursor where it is moves on by its size. -/
theorem of_occupy {placed : PlacedOperation} {size : Nat} {location : Location}
    (hoccupy : mid.occupy size = .ok next)
    (hplaced : Event.enters? (.operation placed size location) = none)
    (hpending : ∀ pending, Event.leavesOrigin pending (.operation placed size location) =
      (pending && size == 0))
    (hcurrent : mid.current = layout.current) (haddress : mid.address = layout.address)
    (hresumes : layout.Resumes mid) : Shift layout next (.operation placed size location) := by
  obtain ⟨hzero, rfl⟩ | ⟨hsized, hoccupy⟩ := Layout.occupy_eq_ok.mp hoccupy
  · refine .still hplaced (fun pending => ?_) hcurrent haddress hresumes
    rw [hpending, hzero, beq_self_eq_true, Bool.and_true]
  · obtain ⟨key, segment, hrequire, -, -⟩ := Layout.advance_eq_ok.mp hoccupy
    obtain ⟨hkey, hsegment⟩ := Layout.requireSegment_eq_ok.mp hrequire
    obtain ⟨hcursor, -, -, hnext⟩ := Layout.advance_shared hoccupy
    have hmoved : next.address = mid.address + size := congrArg Cursor.address hcursor
    have hhere : next.outline? key = some { segment.outline with resume := next.address } := by
      rw [hnext, if_pos hkey, Layout.outline?, hsegment, hmoved, Option.map_some, Option.map_some]
    refine .code hsized (hcurrent ▸ hkey) ((congrArg Cursor.current hcursor).trans hkey) hhere ?_
    intro other outline hother houtline
    rw [hnext, if_neg (fun heq => hother (Option.some.inj (heq.symm.trans hkey)))]
    exact hresumes other outline houtline

end Shift

/-- An event of the first walk moves the cursor in one of these ways. -/
theorem EventMove.shift {layout next : Layout} {event : Event} (h : EventMove layout event next) :
    Shift layout next event := by
  cases h with
  | enter call location => exact .still rfl (fun _ => rfl) rfl rfl fun _ _ => id
  | leave location => exact .still rfl (fun _ => rfl) rfl rfl fun _ _ => id
  | @operation mid _ placed location moves occupies =>
    cases placed with
    | createSegment name start size fileOffset =>
      obtain ⟨hfree, hmid⟩ := Layout.addSegment_eq_ok.mp moves
      refine .of_occupy occupies rfl (fun _ => rfl) (by rw [hmid]) (by rw [hmid]) ?_
      intro key outline houtline
      rw [Layout.outline?_addSegment moves, if_neg]
      · exact houtline
      · rintro rfl
        rw [Layout.outline?, hfree] at houtline
        cases houtline
    | changeSegment name =>
      cases occupies
      obtain ⟨segment, hsegment, rfl⟩ := Layout.enter_eq_ok.mp moves
      have hfound : layout.outline? (upperText name) = some segment.outline := by
        rw [Layout.outline?, hsegment, Option.map_some]
      exact .enter hfound rfl rfl fun _ _ => id
    | setOrigin address =>
      cases occupies
      obtain ⟨-, rfl⟩ := moves
      exact .origin rfl fun _ _ => id
    | setWidth register wide =>
      obtain rfl := moves
      cases register
      · exact .of_occupy occupies rfl (fun _ => rfl) rfl rfl fun _ _ => id
      · exact .of_occupy occupies rfl (fun _ => rfl) rfl rfl fun _ _ => id
    | flow step number =>
      obtain ⟨-, hmid⟩ := moves
      rw [hmid] at occupies
      exact .of_occupy occupies rfl (fun _ => rfl) rfl rfl fun _ _ => id
    | _ =>
      have hcursor : mid.cursor = layout.cursor := Layout.Alike.cursor moves
      exact .of_occupy occupies rfl (fun _ => rfl) (congrArg Cursor.current hcursor)
        (congrArg Cursor.address hcursor) (.of_outline (Layout.Alike.outline moves))

/-- Placing bytes moves on by their number. -/
theorem Layout.place_occupies {layout next : Layout} {bytes : List UInt8}
    (h : layout.place bytes = .ok next) :
    ∃ written, Alike written layout ∧ written.occupy bytes.length = .ok next := by
  cases bytes with
  | nil =>
    rw [place_nil] at h
    cases h
    exact ⟨layout, .refl layout, rfl⟩
  | cons first rest =>
    obtain ⟨⟨key, segment⟩, hcurrent, -⟩ := bind_eq_ok.mp h
    rw [place_eq (List.cons_ne_nil _ _) hcurrent] at h
    split at h
    case h_1 => cases h
    case h_2 written _ =>
      have halike : Alike (layout.setSegment key { segment with bytes := written }) layout :=
        setCurrent_alike hcurrent rfl
      exact ⟨_, halike, h⟩

/-- An event of the second walk moves the cursor in one of these ways. -/
theorem Emission.shift {labels : List Resolution} {emission next : Emission} {event : Event}
    (h : emission.event labels event = .ok next) : Shift emission.layout next.layout event := by
  cases event with
  | enter call location =>
    cases h
    cases call
    · exact .still rfl (fun _ => rfl) rfl rfl fun _ _ => id
    · exact .still rfl (fun _ => rfl) rfl rfl fun _ _ => id
  | leave location =>
    cases h
    exact .still rfl (fun _ => rfl) rfl rfl fun _ _ => id
  | operation placed size location =>
    obtain ⟨emitted, hemitted, rfl, layout, hplace, rfl⟩ :=
      operation_eq_ok.mp (failingAt_eq_ok.mp h)
    have henters := emitOperation_enters hemitted
    have hlength := emitOperation_length hemitted
    obtain ⟨written, halike, hoccupy⟩ := Layout.place_occupies hplace
    have hcursor : written.cursor = emitted.layout.cursor := halike.cursor
    cases placed with
    | changeSegment name =>
      rw [show emitted.code.bytes.length = 0 from hlength] at hoccupy ⊢
      cases hoccupy
      obtain ⟨segment, hsegment, hentered⟩ := Layout.enter_eq_ok.mp henters
      have hfound : emission.layout.outline? (upperText name) = some segment.outline := by
        rw [Layout.outline?, hsegment, Option.map_some]
      rw [hentered] at hcursor halike
      exact .enter hfound (congrArg Cursor.current hcursor) (congrArg Cursor.address hcursor)
        (.of_outline halike.outline)
    | setOrigin address =>
      rw [show emitted.code.bytes.length = 0 from hlength] at hoccupy ⊢
      cases hoccupy
      rw [show emitted.layout = _ from henters] at hcursor halike
      exact .origin (congrArg Cursor.current hcursor) (.of_outline halike.outline)
    | setWidth register wide =>
      rw [show emitted.layout = _ from henters] at hcursor halike
      cases register
      · exact .of_occupy hoccupy rfl (fun _ => rfl) (congrArg Cursor.current hcursor)
          (congrArg Cursor.address hcursor) (.of_outline halike.outline)
      · exact .of_occupy hoccupy rfl (fun _ => rfl) (congrArg Cursor.current hcursor)
          (congrArg Cursor.address hcursor) (.of_outline halike.outline)
    | _ =>
      rw [show emitted.layout = _ from henters] at hcursor halike
      exact .of_occupy hoccupy rfl (fun _ => rfl) (congrArg Cursor.current hcursor)
        (congrArg Cursor.address hcursor) (.of_outline halike.outline)

/-! ## Runs of both walks -/

section Runs

variable {environment : Environment} {start layout : Layout} {tasks others : List Task}
  {trace : List (Layout × Event)} {labels : List Resolution} {emission reached : Emission}
  {events : List Event}

theorem WalksThrough.stands
    (walk : WalksThrough environment Layout.empty tasks trace layout others) :
    layout.Stands (originPending (trace.map Prod.snd)) := by
  induction walk with
  | here => exact fun key hkey => by cases hkey
  | step walk advanced ih =>
    rw [originPending, List.map_append, List.foldl_append]
    exact (Task.advance_move advanced).shift.stands ih

theorem WalksThrough.away (walk : WalksThrough environment start tasks trace layout others)
    {key : String} {outline : Outline} (hcurrent : start.current ≠ some key)
    (houtline : start.outline? key = some outline)
    (hstays : ∀ step ∈ trace, step.2.enters? ≠ some key) :
    layout.current ≠ some key ∧ layout.outline? key = some outline := by
  induction walk with
  | here => exact ⟨hcurrent, houtline⟩
  | step walk advanced ih =>
    rw [List.forall_mem_append] at hstays
    obtain ⟨hgone, hkept⟩ := ih hstays.1
    exact (Task.advance_move advanced).shift.away hgone (hstays.2 _ List.mem_cons_self) hkept

theorem emitEvents_stands {pending : Bool} (h : emitEvents labels emission events = .ok reached)
    (hstands : emission.layout.Stands pending) :
    reached.layout.Stands (events.foldl Event.leavesOrigin pending) := by
  induction events generalizing emission pending with
  | nil =>
    cases h
    exact hstands
  | cons event rest ih =>
    obtain ⟨next, hnext, hrest⟩ := bind_eq_ok.mp h
    exact ih hrest ((Emission.shift hnext).stands hstands)

theorem emitEvents_away (h : emitEvents labels emission events = .ok reached) {key : String}
    {outline : Outline} (hcurrent : emission.layout.current ≠ some key)
    (houtline : emission.layout.outline? key = some outline)
    (hstays : ∀ event ∈ events, event.enters? ≠ some key) :
    reached.layout.outline? key = some outline := by
  induction events generalizing emission with
  | nil =>
    cases h
    exact houtline
  | cons event rest ih =>
    obtain ⟨next, hnext, hrest⟩ := bind_eq_ok.mp h
    obtain ⟨hevent, hothers⟩ := List.forall_mem_cons.mp hstays
    obtain ⟨hgone, hkept⟩ := (Emission.shift hnext).away hcurrent hevent houtline
    exact ih hrest hgone hkept hothers

/-- Entering a segment whose address was kept goes on where the cursor was when the segment was
current, unless an origin was pending then. -/
theorem Layout.Stands.enter {later : Layout} {pending : Bool} {key name : String}
    (h : layout.Stands pending) (hcurrent : layout.current = some key)
    (hkept : layout.outline? key = later.outline? key) (hname : upperText name = key) :
    ∃ segment back, layout.segments.get? key = some segment ∧ later.enter name = .ok back ∧
      back.current = some key ∧ back.address = segment.resume ∧
      (pending = false → back.address = layout.address) := by
  subst hname
  obtain ⟨outline, houtline, haddress⟩ := h _ hcurrent
  obtain ⟨segment, hsegment, rfl⟩ := Option.map_eq_some_iff.mp houtline
  obtain ⟨found, hfound, hsame⟩ := Option.map_eq_some_iff.mp (hkept.symm.trans houtline)
  have hresume : found.resume = segment.resume := congrArg Outline.resume hsame
  refine ⟨segment, _, hsegment, enter_eq_ok.mpr ⟨found, hfound, rfl⟩, rfl, hresume, fun hnone => ?_⟩
  exact hresume.trans (haddress hnone).symm

end Runs

/-- Switching segments and back goes on where the code of the segment ends, and where the cursor was
unless an origin is pending. In every state that laying out or emitting a program comes to, entering
another segment, doing anything that does not enter the segment again, and then entering it takes
the cursor to the address that the segment remembered when it was left. -/
theorem segment_switches_resume {key other name : String} (hother : upperText other ≠ key)
    (hname : upperText name = key) :
    (∀ (environment : Environment) (tasks others : List Task) (before : List (Layout × Event))
        (layout entered : Layout),
      WalksThrough environment Layout.empty tasks before layout others →
      layout.current = some key → layout.enter other = .ok entered →
      ∀ doing during later left, WalksThrough environment entered doing during later left →
      (∀ step ∈ during, step.2.enters? ≠ some key) →
        ∃ segment back, layout.segments.get? key = some segment ∧ later.enter name = .ok back ∧
          back.current = some key ∧ back.address = segment.resume ∧
          (originPending (before.map Prod.snd) = false → back.address = layout.address)) ∧
      ∀ (final : Layout) (labels : List Resolution) (before : List Event) (emission : Emission)
        (entered : Layout),
      emitEvents labels (Emission.initial final) before = .ok emission →
      emission.layout.current = some key → emission.layout.enter other = .ok entered →
      ∀ during reached, emitEvents labels { emission with layout := entered } during = .ok reached →
      (∀ event ∈ during, event.enters? ≠ some key) →
        ∃ segment back, emission.layout.segments.get? key = some segment ∧
          reached.layout.enter name = .ok back ∧ back.current = some key ∧
          back.address = segment.resume ∧
          (originPending before = false → back.address = emission.layout.address) := by
  -- Entering another segment leaves all addresses alone.
  have hleave (layout entered : Layout) (h : layout.enter other = .ok entered) :
      entered.current ≠ some key ∧ entered.outline? key = layout.outline? key := by
    obtain ⟨segment, -, rfl⟩ := Layout.enter_eq_ok.mp h
    exact ⟨fun heq => hother (Option.some.inj heq), rfl⟩
  constructor
  · intro environment tasks others before layout entered walk hcurrent hentered doing during later
      left away hstays
    obtain ⟨outline, houtline, -⟩ := walk.stands key hcurrent
    obtain ⟨hgone, hsame⟩ := hleave layout entered hentered
    obtain ⟨-, hkept⟩ := away.away hgone (hsame.trans houtline) hstays
    exact walk.stands.enter hcurrent (houtline.trans hkept.symm) hname
  · intro final labels before emission entered hbefore hcurrent hentered during reached hduring
      hstays
    have hstands : emission.layout.Stands (originPending before) :=
      emitEvents_stands hbefore fun key hkey => by cases hkey
    obtain ⟨outline, houtline, -⟩ := hstands key hcurrent
    obtain ⟨hgone, hsame⟩ := hleave emission.layout entered hentered
    have hkept := emitEvents_away hduring hgone (hsame.trans houtline) hstays
    exact hstands.enter hcurrent (houtline.trans hkept.symm) hname

/-- Code in one segment, code in another, and back. -/
theorem segment_switches_resume_betweenCode :
    ∃ (trace during : List (Layout × Event)) (layout entered later back : Layout),
      WalksThrough ⟨[], [], ⟨.ofTable [], []⟩⟩ Layout.empty
        (bodyTasks [] [.operation (.createSegment "c" 0x8000 9 0) default,
          .operation (.createSegment "d" 0x9000 9 9) default,
          .operation (.changeSegment "c") default, .operation (.setOrigin (.number (.ofInt 0x8004)))
            default, .operation (.data .byte [.number (.ofInt 1)]) default]) trace layout [] ∧
      layout.current = some "C" ∧ layout.address = 0x8005 ∧ layout.enter "d" = .ok entered ∧
      WalksThrough ⟨[], [], ⟨.ofTable [], []⟩⟩ entered
        (bodyTasks [] [.operation (.data .byte [.number (.ofInt 2)]) default]) during later [] ∧
      later.enter "c" = .ok back ∧ back.address = 0x8005 := by
  have walk : FirstWalk ⟨[], [], ⟨.ofTable [], []⟩⟩ Layout.empty
      (bodyTasks [] [.operation (.createSegment "c" 0x8000 9 0) default,
        .operation (.createSegment "d" 0x9000 9 9) default,
        .operation (.changeSegment "c") default, .operation (.setOrigin (.number (.ofInt 0x8004)))
          default, .operation (.data .byte [.number (.ofInt 1)]) default]) _ _ :=
    .step rfl (.step rfl (.step rfl (.step rfl (.step rfl (.done _)))))
  have hother : upperText "d" ≠ "C" := by decide
  have hname : upperText "c" = "C" := by decide
  obtain ⟨segment, back, -, hback, -, -, haddress⟩ := (segment_switches_resume hother hname).1
    _ _ _ _ _ _ walk.walksThrough rfl rfl
    (bodyTasks [] [.operation (.data .byte [.number (.ofInt 2)]) default]) _ _ _
    (FirstWalk.step rfl (.done _)).walksThrough (by simp [Event.enters?])
  exact ⟨_, _, _, _, _, back, walk.walksThrough, rfl, rfl, rfl,
    (FirstWalk.step rfl (.done _)).walksThrough, hback, haddress rfl⟩

/-- An origin without code after it is lost by a switch to another segment and back: the cursor was
at 0x8010, and the segment goes on at its start. -/
theorem origin_lost_by_switching :
    ∃ (main : SourceFile) (run : AssemblyRun ⟨.ofTable [], []⟩ main) (entered back : Layout),
      main.text = " .segment \"c\",0x8000,0x20,0\n .segment \"d\",0x9000,9,0x20\n .c\n" ++
        " .org 0x8010\n" ∧
      WalksTo (run.program.environment ⟨.ofTable [], []⟩) Layout.empty
        (bodyTasks [] run.program.actions) run.layout [] ∧
      run.layout.current = some "C" ∧ run.layout.address = 0x8010 ∧
      run.layout.enter "d" = .ok entered ∧ entered.enter "c" = .ok back ∧
      back.current = some "C" ∧ back.address = 0x8000 := by
  let main : SourceFile :=
    ⟨"m.s", " .segment \"c\",0x8000,0x20,0\n .segment \"d\",0x9000,9,0x20\n .c\n" ++
      " .org 0x8010\n"⟩
  obtain ⟨run, hrun⟩ : ∃ run : AssemblyRun ⟨.ofTable [], []⟩ main,
      (run.layout.current == some "C" && run.layout.address == 0x8010 &&
        (run.layout.enter "d" >>= fun entered => entered.enter "c").toOption.any fun back =>
          back.current == some "C" && back.address == 0x8000) = true :=
    AssemblyRun.exists_of_any _ (by decide +kernel)
  simp only [Bool.and_eq_true, beq_iff_eq] at hrun
  obtain ⟨⟨hcurrent, haddress⟩, hback⟩ := hrun
  obtain ⟨back, hback, hplace⟩ := exists_ok_of_any _ hback
  obtain ⟨entered, hentered, hback⟩ := bind_eq_ok.mp hback
  simp only [Bool.and_eq_true, beq_iff_eq] at hplace
  obtain ⟨-, trace, -, walk⟩ := layoutProgram_firstWalk run.laidOut
  exact ⟨main, run, entered, back, rfl, walk.walksTo, hcurrent, haddress, hentered, hback, hplace⟩

end Asm65816
