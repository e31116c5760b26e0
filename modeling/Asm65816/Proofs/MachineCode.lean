import Asm65816.Proofs.FlowLowering
import Asm65816.Proofs.ListingRows

/-!
# The machine instructions of operations

An instruction is one machine instruction, and a flow statement stands for a few of them. The length
of each follows from its first byte and the register widths alone, although several entries of the
opcode table may share the byte; the comparison of a case is as wide as the register of its switch
is at the case.
-/

namespace Asm65816

/-! ## The register of a case -/

/-- What a frame keeps for good: all but the addresses noted in it. -/
def FrameKind.stem : FrameKind → FrameKind
  | .ifFrame condition _ _ => .ifFrame condition none none
  | .elseFrame condition _ => .elseFrame condition none
  | .loopFrame => .loopFrame
  | .whileFrame condition _ => .whileFrame condition none
  | .switchFrame register _ => .switchFrame register none
  | .caseFrame switch _ => .caseFrame switch none

namespace FlowState

/-- What the frame of a number keeps for good. -/
def stem? (state : FlowState) (number : Nat) : Option FrameKind :=
  (state.kind? number).map FrameKind.stem

/-- Frames are kept, apart from addresses noted in them. -/
def Within (state next : FlowState) : Prop :=
  ∀ number stem, state.stem? number = some stem → next.stem? number = some stem

namespace Within

/-- Frames are within themselves, whichever of them are open. -/
theorem withOpened (state : FlowState) (others : List Nat) :
    state.Within (state.withOpened others) :=
  fun _ _ h => h

/-- Frames that are kept twice are kept. -/
theorem trans {first second third : FlowState} (h : first.Within second)
    (h' : second.Within third) : first.Within third :=
  fun number stem hstem => h' number stem (h number stem hstem)

/-- A new frame changes no other. -/
theorem push (state : FlowState) (frame : FlowFrame) : state.Within (state.push frame).2 := by
  intro number stem hstem
  obtain ⟨kind, hkind, -⟩ := Option.map_eq_some_iff.mp hstem
  have hlt := lt_of_kind? hkind
  rw [stem?, kind?, frames_push, if_neg (by omega)]
  exact hstem

/-- Noting addresses in a frame keeps it. -/
theorem setKind {state : FlowState} {changed : Nat} {old kind : FrameKind}
    (hold : state.kind? changed = some old) (hstem : kind.stem = old.stem) :
    state.Within (state.setKind changed kind) := by
  intro number stem hnumber
  rw [stem?, kind?, frames_setKind]
  by_cases hchanged : changed = number
  · subst hchanged
    rw [stem?, hold, Option.map_some, Option.some.injEq] at hnumber
    obtain ⟨frame, hframe, -⟩ := Option.map_eq_some_iff.mp hold
    rw [if_pos rfl, hframe, ← hnumber, ← hstem]
    rfl
  · rw [if_neg hchanged]
    exact hnumber

end Within

/-- Taking the innermost frame and noting addresses in it keeps the frames. -/
theorem Innermost.within {state : FlowState} {number : Nat} {frame : FlowFrame} {others : List Nat}
    {kind noted : FrameKind} (h : state.Innermost number frame others) (hkind : frame.kind = kind)
    (hnoted : noted.stem = kind.stem) :
    state.Within ((state.withOpened others).setKind number noted) := by
  have hfound : (state.withOpened others).kind? number = some kind := h.kind?.trans (hkind ▸ rfl)
  exact (Within.withOpened state others).trans (.setKind hfound hnoted)

/-- The register of a case follows from what its frame and that of its switch keep. -/
theorem caseRegister?_eq_some {state : FlowState} {number : Nat} {register : Register} :
    state.caseRegister? number = some register ↔
      ∃ switch, state.stem? number = some (.caseFrame switch none) ∧
        state.stem? switch = some (.switchFrame register none) := by
  have hcase (number switch : Nat) : state.stem? number = some (.caseFrame switch none) ↔
      ∃ nextAt, state.kind? number = some (.caseFrame switch nextAt) := by
    unfold stem?
    rcases state.kind? number with _ | kind
    · simp
    · cases kind <;> simp [FrameKind.stem]
  have hswitch (number : Nat) : state.stem? number = some (.switchFrame register none) ↔
      ∃ endAt, state.kind? number = some (.switchFrame register endAt) := by
    unfold stem?
    rcases state.kind? number with _ | kind
    · simp
    · cases kind <;> simp [FrameKind.stem]
  simp only [hcase, hswitch]
  constructor
  · intro h
    simp only [caseRegister?, Option.bind_eq_bind, Option.bind_eq_some_iff] at h
    obtain ⟨frame, hframe, h⟩ := h
    split at h
    case h_2 => cases h
    case h_1 switch nextAt hkind =>
      split at h
      case h_2 => cases h
      case h_1 found endAt hfound =>
        cases h
        refine ⟨switch, ⟨nextAt, ?_⟩, endAt, hfound⟩
        rw [kind?, hframe, Option.map_some, hkind]
  · rintro ⟨switch, ⟨nextAt, hnumber⟩, endAt, hfound⟩
    obtain ⟨frame, hframe, hkind⟩ := Option.map_eq_some_iff.mp hnumber
    rw [kind?] at hfound
    simp only [caseRegister?, hframe, Option.bind_eq_bind, Option.bind_some, hkind, hfound]

end FlowState

/-- A flow statement keeps the frames. -/
theorem FlowMove.within {location : Location} {address : Int} {state next : FlowState}
    {step : FlowStep} {number : Nat} (h : FlowMove location address state step number next) :
    state.Within next := by
  cases h with
  | ifStart condition => exact .push _ _
  | loopStart => exact .push _ _
  | whileStart condition => exact .push _ _
  | switchStart register => exact .push _ _
  | elseStart inner kind fresh => exact (inner.within kind (by rfl)).trans (.push _ _)
  | ifEnd inner kind => exact inner.within kind rfl
  | elseEnd inner kind => exact inner.within kind rfl
  | loopUntil condition inner kind => exact .withOpened _ _
  | loopForever inner kind reach => exact .withOpened _ _
  | whileEnd inner kind => exact inner.within kind rfl
  | firstCase value wide inner kind =>
    exact (FlowState.Within.withOpened _ _).trans (.push _ _)
  | nextCase value wide inner kind fresh => exact (inner.within kind (by rfl)).trans (.push _ _)
  | emptySwitchEnd inner kind => exact inner.within kind rfl
  | switchEnd inner kind owner => exact (inner.within kind (by rfl)).trans (.setKind owner (by rfl))

/-- A case is compared with the register of the switch that is open where it is laid out. -/
theorem FlowMove.caseRegister {location : Location} {address : Int} {state next : FlowState}
    {value : Expr} {follows wide : Bool} {number : Nat} {register : Register}
    (h : FlowMove location address state (.caseStart value follows wide) number next)
    (hregister : state.switchRegister? = some register) :
    next.caseRegister? number = some register := by
  have hwithin := h.within
  -- The innermost frame is that of the switch or that of the case before this one.
  have hpop {opener : Nat} {frame : FlowFrame} {others : List Nat}
      (hinner : state.Innermost opener frame others) :
      state.pop? = some (opener, frame, state.withOpened others) := by
    simp only [FlowState.pop?, hinner.opened, hinner.found]
    rfl
  cases h with
  | @firstCase opener frame others found endAt _ _ inner kind =>
    rw [FlowState.switchRegister?_of_switch (hpop inner) (inner.kind?.trans (congrArg some kind)),
      Option.some.injEq] at hregister
    subst hregister
    refine FlowState.caseRegister?_eq_some.mpr ⟨opener, ?_, hwithin _ _ ?_⟩
    · exact congrArg (Option.map FrameKind.stem) (FlowState.kind?_push_self _ _)
    · rw [FlowState.stem?, inner.kind?, kind]
      rfl
  | @nextCase opener switch _ frame others nextAt _ _ inner kind fresh =>
    simp only [FlowState.switchRegister?, hpop inner, Option.bind_eq_bind, Option.bind_some,
      kind] at hregister
    split at hregister
    case h_2 => cases hregister
    case h_1 found endAt hswitch =>
      cases hregister
      refine FlowState.caseRegister?_eq_some.mpr ⟨switch, ?_, hwithin _ _ ?_⟩
      · subst fresh
        have hlength : state.frames.length = ((state.withOpened others).setKind opener
            (.caseFrame switch (some (address + 2)))).frames.length := by
          simp [FlowState.setKind, FlowState.withOpened]
        rw [hlength]
        exact congrArg (Option.map FrameKind.stem) (FlowState.kind?_push_self _ _)
      · rw [FlowState.stem?, FlowState.kind?, hswitch]
        rfl

/-- The first walk keeps the frames. -/
theorem FirstWalk.flow_within {environment : Environment} {layout last : Layout}
    {tasks : List Task} {trace : List (Layout × Event)}
    (walk : FirstWalk environment layout tasks trace last) : layout.flow.Within last.flow := by
  induction walk with
  | done layout => exact fun _ _ h => h
  | step advanced rest ih =>
    cases Task.advance_move advanced with
    | enter call location => exact ih
    | leave location => exact ih
    | @operation mid _ placed location moves occupies =>
      rw [Layout.occupy_flow occupies] at ih
      refine FlowState.Within.trans ?_ ih
      by_cases hflow : ∃ step number, placed = .flow step number
      · obtain ⟨step, number, rfl⟩ := hflow
        exact moves.1.within
      · rw [Layout.moves_flow moves fun step number heq => hflow ⟨step, number, heq⟩]
        exact fun _ _ h => h

/-- A case that the second walk comes to compares as many bytes as its register has there. -/
theorem Reached.case_wide {environment : Environment} {actions : List Action}
    {final second : Layout} {value : Expr} {follows wide : Bool} {number : Nat}
    {location : Location} {register : Register}
    (h : Reached environment actions final (.flow (.caseStart value follows wide) number) location
      second) (hregister : second.flow.caseRegister? number = some register) :
    wide = register.isWide second.widths := by
  cases h with
  | @intro calls operation found mid next others tail walked laidOut occupied rest follows =>
    obtain ⟨operand, stated, rfl, -⟩ := placeOperation_stemsFrom laidOut
    simp only [placeOperation, bind_eq_ok, pure_eq_ok] at laidOut
    obtain ⟨⟨step, frame, size, reached⟩, hplaced, hresult⟩ := laidOut
    simp only [Prod.mk.injEq, PlacedOperation.flow.injEq] at hresult
    obtain ⟨⟨rfl, rfl⟩, -, rfl⟩ := hresult
    obtain ⟨-, -, switched, -, -, hswitched, hwide, -⟩ := placeFlow_caseStart hplaced
    obtain ⟨hmove, -⟩ := placeFlow_move hplaced
    obtain ⟨switch, hcase, hswitch⟩ :=
      FlowState.caseRegister?_eq_some.mp (hmove.caseRegister hswitched)
    -- What the frames kept when the case was laid out is what they have at the end.
    have hwithin := rest.flow_within
    rw [Layout.occupy_flow occupied] at hwithin
    have hfinal : second.flow.caseRegister? frame = some switched := by
      rw [follows.flow]
      exact FlowState.caseRegister?_eq_some.mpr ⟨switch, hwithin _ _ hcase, hwithin _ _ hswitch⟩
    rw [hfinal, Option.some.injEq] at hregister
    rw [hwide, hregister, follows.widths]

/-! ## The lengths of instructions -/

namespace Opcode

/-- Which register width lengthens an instruction. -/
def lengthening (opcode : Opcode) : ImmediateRule :=
  match opcode.mode, opcode.rule with
  | .immediate, .accumulator => .accumulator
  | .immediate, .index => .index
  | _, _ => .fixed

/-- The length of an instruction follows from its mode and what lengthens it. -/
theorem encodedSize_eq (opcode : Opcode) (widths : RegisterWidths) :
    opcode.encodedSize widths = opcode.mode.size +
      if opcode.lengthening.isWide widths.accumulator widths.index then 1 else 0 := by
  obtain ⟨mnemonic, mode, code, rule⟩ := opcode
  cases mode <;> cases rule <;> rfl

/-- Entries of the table that share a byte are equally long. Only bytes with the same upper half are
compared. -/
theorem table_lengths : ∀ upper < 16,
    (table.filter fun entry => entry.code.toNat / 16 = upper).Pairwise fun first second =>
      first.code.toNat = second.code.toNat →
        first.mode.size = second.mode.size ∧ first.lengthening = second.lengthening := by
  decide +kernel

/-- Entries of the table that share a byte have the same length in every state of the registers. -/
theorem encodedSize_of_code {first second : Opcode} (hfirst : first ∈ table)
    (hsecond : second ∈ table) (hcode : first.code = second.code) (widths : RegisterWidths) :
    first.encodedSize widths = second.encodedSize widths := by
  have hupper : first.code.toNat / 16 < 16 := by
    have hbyte := first.code.toNat_lt
    omega
  have hpairs := table_lengths _ hupper
  have hall := hpairs.forall_of_forall_of_flip (fun entry _ _ => ⟨rfl, rfl⟩)
    (hpairs.imp fun h hback => (h hback.symm).imp Eq.symm Eq.symm)
  obtain ⟨hsize, hlengthening⟩ := hall (List.mem_filter.mpr ⟨hfirst, by simp⟩)
    (List.mem_filter.mpr ⟨hsecond, by simp [hcode]⟩) (congrArg UInt8.toNat hcode)
  rw [encodedSize_eq, encodedSize_eq, hsize, hlengthening]

/-- The length of the instruction that a byte begins, by the first entry with this byte. -/
def lengthOf? (widths : RegisterWidths) (code : UInt8) : Option Nat :=
  (table.find? fun entry => entry.code == code).map fun entry => entry.encodedSize widths

/-- Every entry with a byte says how long the instruction is. -/
theorem lengthOf?_code {entry : Opcode} (h : entry ∈ table) (widths : RegisterWidths) :
    lengthOf? widths entry.code = some (entry.encodedSize widths) := by
  unfold lengthOf?
  cases hfound : table.find? fun other => other.code == entry.code with
  | none =>
    have hnone := List.find?_eq_none.mp hfound entry h
    simp at hnone
  | some found =>
    have hcode : found.code = entry.code := by simpa using List.find?_some hfound
    rw [Option.map_some, encodedSize_of_code (List.mem_of_find?_eq_some hfound) h hcode]

/-- Comparisons with an immediate operand are lengthened by the width of their register. -/
theorem compare_lengthening (register : Register) : ∀ entry ∈ table, entry.mode = .immediate →
    entry.mnemonic = lowerAscii register.compare →
      entry.lengthening = if register = .a then .accumulator else .index := by
  cases register <;> decide +kernel

/-- An opcode that is selected is an entry of the table for its mnemonic. -/
theorem chooses_of_select {mnemonic : String} {widths : RegisterWidths} {operands : List Expr}
    {opcode : Opcode} (h : select mnemonic widths operands = .ok opcode) (wide : Bool) :
    Selection.Chooses ⟨mnemonic, opcode.mode, wide⟩ opcode := by
  unfold select at h
  split at h
  case h_2 => cases h
  case h_1 found hfound =>
    cases h
    obtain ⟨mode, -, hentry⟩ := List.mem_filterMap.mp (List.mem_of_find?_eq_some hfound)
    obtain ⟨htable, hmnemonic⟩ := List.mem_filter.mp (List.mem_of_find?_eq_some hentry)
    exact ⟨htable, by simpa using hmnemonic, rfl⟩

end Opcode

/-! ## Rows of machine instructions -/

/-- The rows of a code are complete instructions in the given state of the registers. -/
def Code.RowsFit (code : Code) (widths : RegisterWidths) : Prop :=
  ∀ row ∈ code.rows, ∃ entry ∈ Opcode.table, row.bytes.head? = some entry.code ∧
    row.bytes.length = entry.encodedSize widths

/-- Rows fit when every selected instruction is as long as its entries say. -/
theorem Code.Encodes.rowsFit {address : Int} {selections : List Selection} {code : Code}
    {widths : RegisterWidths} (h : code.Encodes address selections)
    (hlength : ∀ selection ∈ selections, ∀ entry, selection.Chooses entry →
      selection.length = entry.encodedSize widths) : code.RowsFit widths := by
  induction h with
  | none bytes rows => simp [RowsFit, rows]
  | single chosen bytes length rows =>
    intro row hrow
    rw [rows, List.mem_singleton] at hrow
    subst hrow
    refine ⟨_, chosen.1, ?_, ?_⟩
    · rw [bytes, List.head?_cons]
    · rw [bytes, List.length_cons, length, hlength _ (List.mem_singleton_self _) _ chosen]
  | append before after ihBefore ihAfter =>
    intro row hrow
    rw [rows_append, List.mem_append] at hrow
    rcases hrow with hfirst | hsecond
    · exact ihBefore (fun selection hmem => hlength selection (List.mem_append_left _ hmem)) row
        hfirst
    · exact ihAfter (fun selection hmem => hlength selection (List.mem_append_right _ hmem)) row
        hsecond

/-- Machine instructions have a row each. -/
theorem Code.Encodes.length_rows {address : Int} {selections : List Selection} {code : Code}
    (h : code.Encodes address selections) : code.rows.length = selections.length := by
  induction h with
  | none bytes rows => rw [rows]; rfl
  | single chosen bytes length rows => rw [rows]; rfl
  | append before after ihBefore ihAfter => simp [ihBefore, ihAfter]

/-- The row of every machine instruction begins with the byte of an entry for it, and is as long as
was selected. -/
theorem Code.Encodes.chosen {address : Int} {selections : List Selection} {code : Code}
    (h : code.Encodes address selections) :
    ∀ pair ∈ code.rows.zip selections, ∃ entry, pair.2.Chooses entry ∧
      pair.1.bytes.head? = some entry.code ∧ pair.1.bytes.length = pair.2.length := by
  induction h with
  | none bytes rows => simp [rows]
  | single chosen bytes length rows =>
    intro pair hpair
    rw [rows, List.zip_cons_cons, List.zip_nil_left, List.mem_singleton] at hpair
    subst hpair
    refine ⟨_, chosen, ?_, ?_⟩
    · rw [bytes, List.head?_cons]
    · rw [bytes, List.length_cons, length]
  | append before after ihBefore ihAfter =>
    intro pair hpair
    rw [rows_append, List.zip_append before.length_rows, List.mem_append] at hpair
    exact hpair.elim (ihBefore pair) (ihAfter pair)

/-! ## The machine instructions of operations -/

/-- Whether an operation is an instruction or a flow statement. -/
def PlacedOperation.isCode : PlacedOperation → Bool
  | .instruction _ => true
  | .flow _ _ => true
  | _ => false

namespace EmittedOperation

/-- The machine instructions that an operation stands for, as they were selected. -/
def selections (entry : EmittedOperation) : List Selection :=
  match entry.operation with
  | .instruction encoding => [⟨encoding.mnemonic, encoding.opcode.mode, encoding.wide⟩]
  | .flow step number => step.selections entry.emitted.layout.flow number
  | _ => []

/-- The machine instructions that an operation emits, each with what was selected for it. -/
def machine (entry : EmittedOperation) : List (ListingRow × Selection) :=
  entry.emitted.code.rows.zip entry.selections

end EmittedOperation

/-- An instruction that the second walk comes to was selected for the place and the register widths
that it finds there. -/
theorem Reached.instruction {environment : Environment} {actions : List Action}
    {final second : Layout} {encoding : Encoding} {location : Location}
    (h : Reached environment actions final (.instruction encoding) location second) :
    encoding.address = second.address ∧
      encoding.wide = encoding.opcode.isWide second.widths ∧
      Opcode.select encoding.mnemonic second.widths encoding.operands = .ok encoding.opcode := by
  cases h with
  | @intro calls operation found mid next others tail walked laidOut occupied rest follows =>
    obtain ⟨mnemonic, operands, rfl, -⟩ := placeOperation_stemsFrom laidOut
    obtain ⟨_, hplaced, rfl, -, hselect, hwide, haddress, -⟩ := placeOperation_instruction laidOut
    cases hplaced
    rw [follows.widths, follows.address]
    exact ⟨haddress, hwide, hselect⟩

/-- An instruction is one machine instruction, as long as its opcode says. -/
theorem Reached.instruction_encodes {environment : Environment} {actions : List Action}
    {final second : Layout} {encoding : Encoding} {location : Location} {labels : List Resolution}
    {emitted : Emitted}
    (h : Reached environment actions final (.instruction encoding) location second)
    (hemits : emitOperation labels second (.instruction encoding) = .ok emitted) :
    emitted.code.Encodes emitted.layout.address
        [⟨encoding.mnemonic, encoding.opcode.mode, encoding.wide⟩] ∧
      emitted.code.RowsFit emitted.layout.widths := by
  obtain ⟨haddress, hwide, hselect⟩ := h.instruction
  have hchosen := Opcode.chooses_of_select hselect encoding.wide
  simp only [emitOperation, bind_eq_ok, pure_eq_ok] at hemits
  obtain ⟨bytes, hbytes, rfl⟩ := hemits
  have hlength := Encoding.bytes_length hbytes
  simp only [Encoding.bytes, bind_eq_ok, pure_eq_ok] at hbytes
  obtain ⟨operand, -, rfl⟩ := hbytes
  have hsize : operand.length + 1 = encoding.opcode.encodedSize second.widths := by
    rw [List.length_cons] at hlength
    rw [hlength, Encoding.length, Opcode.encodedSize, hwide, Opcode.isWide]
    congr 2
    simp
  have hselected : encoding.opcode.encodedSize second.widths =
      Selection.length ⟨encoding.mnemonic, encoding.opcode.mode, encoding.wide⟩ := by
    rw [Opcode.encodedSize, ← hwide, Selection.length]
  refine ⟨?_, ?_⟩
  · change Code.Encodes second.address _ _
    rw [← haddress]
    exact .single hchosen rfl (hsize.trans hselected) rfl
  · intro row hrow
    obtain rfl := List.mem_singleton.mp hrow
    exact ⟨encoding.opcode, hchosen.1, rfl, hsize⟩

/-- Every machine instruction of a flow statement is as long as its opcode says, if the comparison
of a case is as wide as its register. -/
theorem FlowStep.selections_length {flow : FlowState} {number : Nat} {step : FlowStep}
    {widths : RegisterWidths}
    (hcase : ∀ value follows wide register, step = .caseStart value follows wide →
      flow.caseRegister? number = some register → wide = register.isWide widths) :
    ∀ selection ∈ step.selections flow number, ∀ entry, selection.Chooses entry →
      selection.length = entry.encodedSize widths := by
  have hbranch (mnemonic : String) (mode : AddressingMode) (hmode : mode ≠ .immediate)
      (entry : Opcode) (hentry : Selection.Chooses ⟨mnemonic, mode, false⟩ entry) :
      Selection.length ⟨mnemonic, mode, false⟩ = entry.encodedSize widths := by
    have hsame : entry.mode = mode := hentry.2.2
    simp [Selection.length, Opcode.encodedSize, Opcode.isWide, hsame, hmode]
  have hcompare (register : Register) (entry : Opcode)
      (hentry : Selection.Chooses
        ⟨register.compare, .immediate, register.isWide widths⟩ entry) :
      Selection.length ⟨register.compare, .immediate, register.isWide widths⟩ =
        entry.encodedSize widths := by
    obtain ⟨htable, hmnemonic, hmode⟩ := hentry
    have hlengthening := Opcode.compare_lengthening register entry htable hmode hmnemonic
    rw [Opcode.encodedSize_eq, hlengthening, hmode]
    cases register <;> rfl
  intro selection hselection
  cases step with
  | caseStart value follows wide =>
    simp only [selections, List.mem_append, List.mem_map, Option.mem_toList,
      List.mem_singleton] at hselection
    rcases hselection with (hleave | ⟨register, hregister, rfl⟩) | rfl
    · cases follows with
      | true =>
        obtain rfl := List.mem_singleton.mp hleave
        exact hbranch _ _ (by decide)
      | false => cases hleave
    · rw [hcase value follows wide register rfl hregister]
      exact hcompare register
    · exact hbranch _ _ (by decide)
  | loopForever long =>
    cases long with
    | true =>
      obtain rfl := List.mem_singleton.mp hselection
      exact hbranch _ _ (by decide)
    | false =>
      obtain rfl := List.mem_singleton.mp hselection
      exact hbranch _ _ (by decide)
  | ifStart condition | loopUntil condition | whileStart condition | whileEnd condition
  | elseStart condition =>
    obtain rfl := List.mem_singleton.mp hselection
    exact hbranch _ _ (by decide)
  | ifEnd condition | switchStart register | switchEnd register => cases hselection
  | loopStart => cases hselection

/-- Every instruction and flow statement of an assembly is the machine instructions it stands for,
each as long as its opcode says in the state of the registers. -/
theorem AssemblyRun.encodes {search : AssetSearch} {main : SourceFile}
    (run : AssemblyRun search main) {entry : EmittedOperation} (h : entry ∈ run.operations)
    (hcode : entry.operation.isCode = true) :
    entry.emitted.code.Encodes entry.emitted.layout.address entry.selections ∧
      entry.emitted.code.RowsFit entry.emitted.layout.widths := by
  obtain ⟨operation, emitted⟩ := entry
  obtain ⟨location, second, hreached, hemits⟩ := run.reached_of_mem h
  dsimp only at hcode hreached hemits ⊢
  cases operation with
  | instruction encoding => exact hreached.instruction_encodes hemits
  | flow step number =>
    simp only [emitOperation, bind_eq_ok, pure_eq_ok] at hemits
    obtain ⟨code, hflow, rfl⟩ := hemits
    have hencodes := FlowStep.code_encodes hflow
    refine ⟨hencodes, hencodes.rowsFit (FlowStep.selections_length ?_)⟩
    intro value follows wide register hstep hregister
    subst hstep
    exact hreached.case_wide hregister
  | _ => cases hcode

end Asm65816
