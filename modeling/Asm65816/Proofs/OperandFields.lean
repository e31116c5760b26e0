import Asm65816.Proofs.PlacedLiterals

/-!
# Operands in the bytes of a program

The value of an operand is written as a field of one, two or three bytes. What is checked is the
width that the value states: it has to be within the field. A value whose stated width holds it is
therefore determined by its field. A sign, a complement or an equate may carry a width that does
not hold its value, and only then bytes of the value are lost.
-/

namespace Asm65816

/-- A field in the bytes of an operation for the value of an operand. -/
structure OperandField where
  operand : Expr
  /-- The number of its bytes. -/
  size : Nat
  /-- The number of bytes in front of it. -/
  offset : Nat

namespace OperandField

/-- The bytes of a field. -/
def read (field : OperandField) (bytes : List UInt8) : List UInt8 :=
  (bytes.drop field.offset).take field.size

/-- A field that is written with the value of its operand, whose stated width is within it. -/
def Holds (value : Expr → Except Fault Number) (bytes : List UInt8) (field : OperandField) : Prop :=
  ∃ number, value field.operand = .ok number ∧ number.width ≤ field.size ∧
    field.read bytes = littleEndian number.value field.size

/-- A field is read where it is written. -/
theorem read_append {field : OperandField} {before : List UInt8} (number : Int)
    (after : List UInt8) (hoffset : before.length = field.offset) :
    field.read (before ++ littleEndian number field.size ++ after) =
      littleEndian number field.size := by
  rw [read, List.append_assoc, List.drop_left' hoffset,
    List.take_left' (littleEndian_length number field.size)]

end OperandField

/-! ## The fields of operations -/

/-- The field of the operand at `index`, if there is such an operand. -/
def Encoding.field (encoding : Encoding) (index size offset : Nat) : List OperandField :=
  (encoding.operands[index]?.map fun operand => ⟨operand.valuePart, size, offset⟩).toList

/-- The fields of an instruction that does not branch. -/
def Encoding.fields (encoding : Encoding) : List OperandField :=
  match encoding.opcode.mode with
  | .implied | .accumulator | .stack | .interrupt | .relative | .relativeLong => []
  | .immediate => encoding.field 0 (if encoding.wide then 2 else 1) 1
  | .blockMove => encoding.field 1 1 1 ++ encoding.field 0 1 2
  | mode => encoding.field 0 (mode.size - 1) 1

/-- Whether an item of data is a text. -/
def Expr.isText : Expr → Bool
  | .text _ _ => true
  | _ => false

/-- The fields of data, from the one at `offset` on. Texts have none. -/
def dataFields (width : DataWidth) : Nat → List Expr → List OperandField
  | _, [] => []
  | offset, operand :: rest =>
    let others := dataFields width (offset + datumLength width operand) rest
    if operand.isText then others else ⟨operand, width.bytes, offset⟩ :: others

/-- The fields of a fill, one for each item. -/
def fillFields (wide : Bool) (count : Nat) (value : Expr) : List OperandField :=
  let unit := if wide then 2 else 1
  (List.range count).map fun index => ⟨value, unit, index * unit⟩

/-- The fields in the bytes of an operation that hold the values of its operands. -/
def PlacedOperation.fields : PlacedOperation → List OperandField
  | .instruction encoding => encoding.fields
  | .data width operands => dataFields width 0 operands
  | .fill wide count value => fillFields wide count value
  | .flow (.caseStart value follows wide) _ =>
    [⟨value, if wide then 2 else 1, (if follows then 2 else 0) + 1⟩]
  | _ => []

/-- A field of an instruction belongs to one of its operands. -/
theorem Encoding.mem_field {encoding : Encoding} {index size offset : Nat} {field : OperandField}
    (h : field ∈ encoding.field index size offset) :
    ∃ operand, encoding.operands[index]? = some operand ∧
      field = ⟨operand.valuePart, size, offset⟩ := by
  rw [Encoding.field, Option.mem_toList, Option.map_eq_some_iff] at h
  obtain ⟨operand, hoperand, hfield⟩ := h
  exact ⟨operand, hoperand, hfield.symm⟩

/-- A field of an instruction is at most three bytes long, for the value of an operand. -/
theorem Encoding.mem_fields {encoding : Encoding} {field : OperandField}
    (h : field ∈ encoding.fields) :
    field.operand ∈ encoding.operands.map Expr.valuePart ∧ field.size ≤ 3 := by
  have hfield {index size offset : Nat} (hsize : size ≤ 3)
      (h : field ∈ encoding.field index size offset) :
      field.operand ∈ encoding.operands.map Expr.valuePart ∧ field.size ≤ 3 := by
    obtain ⟨operand, hoperand, rfl⟩ := mem_field h
    exact ⟨List.mem_map_of_mem (List.mem_of_getElem? hoperand), hsize⟩
  unfold fields at h
  cases hmode : encoding.opcode.mode with
  | implied | accumulator | stack | interrupt | relative | relativeLong => simp [hmode] at h
  | immediate =>
    simp only [hmode] at h
    exact hfield (by split <;> omega) h
  | blockMove =>
    simp only [hmode] at h
    exact (List.mem_append.mp h).elim (hfield (by omega)) (hfield (by omega))
  | _ =>
    simp only [hmode] at h
    exact hfield (by decide) h

/-- A field of data belongs to one of its items. -/
theorem mem_dataFields {width : DataWidth} {operands : List Expr} {offset : Nat}
    {field : OperandField} (h : field ∈ dataFields width offset operands) :
    field.operand ∈ operands ∧ field.size = width.bytes := by
  induction operands generalizing offset with
  | nil => cases h
  | cons operand rest ih =>
    rw [dataFields] at h
    cases htext : operand.isText with
    | true =>
      simp only [htext, if_true] at h
      exact ⟨List.mem_cons_of_mem _ (ih h).1, (ih h).2⟩
    | false =>
      simp only [htext, Bool.false_eq_true, if_false, List.mem_cons] at h
      rcases h with rfl | h
      · exact ⟨List.mem_cons_self, rfl⟩
      · exact ⟨List.mem_cons_of_mem _ (ih h).1, (ih h).2⟩

/-- A field is at most three bytes long, and its operand is one that is evaluated. -/
theorem PlacedOperation.mem_fields {placed : PlacedOperation} {field : OperandField}
    (h : field ∈ placed.fields) : field.operand ∈ placed.evaluated ∧ field.size ≤ 3 := by
  cases placed with
  | instruction encoding => exact Encoding.mem_fields h
  | data width operands =>
    obtain ⟨hoperand, hsize⟩ := mem_dataFields h
    refine ⟨hoperand, ?_⟩
    cases width with
    | byte | word | long => exact hsize ▸ by decide
  | fill wide count value =>
    obtain ⟨index, -, rfl⟩ := List.mem_map.mp h
    refine ⟨List.mem_singleton_self value, ?_⟩
    dsimp only
    split <;> omega
  | flow step frame =>
    cases step with
    | caseStart value follows wide =>
      obtain rfl := List.mem_singleton.mp h
      refine ⟨List.mem_singleton_self value, ?_⟩
      dsimp only
      split <;> omega
    | _ => cases h
  | _ => cases h

section Writing

variable {value : Expr → Except Fault Number}

/-- A field of an instruction holds an operand that is written there. -/
theorem Encoding.field_holds {encoding : Encoding} {index size offset : Nat} {number : Number}
    (before after : List UInt8) (hnumber : encoding.operandValue value index = .ok number)
    (hwidth : number.width ≤ size) (hoffset : before.length = offset) :
    ∀ field ∈ encoding.field index size offset,
      field.Holds value (before ++ littleEndian number.value size ++ after) := by
  intro field hfield
  obtain ⟨operand, hoperand, rfl⟩ := mem_field hfield
  rw [operandValue, hoperand] at hnumber
  exact ⟨number, hnumber, hwidth, OperandField.read_append _ _ hoffset⟩

/-- The only field of an instruction that holds its operand stands right behind the opcode. -/
theorem Encoding.fields_of_holdsOperand {encoding : Encoding}
    (h : encoding.opcode.mode.holdsOperand = true) :
    encoding.fields = encoding.field 0 (encoding.length - 1) 1 := by
  unfold fields
  split
  case h_7 hmode =>
    rw [length_of_immediate hmode]
    split <;> rfl
  case h_9 himmediate _ => rw [length_of_ne_immediate himmediate]
  all_goals
    rename_i hmode
    rw [hmode] at h
    cases h

/-- The fields of an instruction hold its operands. -/
theorem Encoding.bytes_fields {encoding : Encoding} {bytes : List UInt8}
    (h : encoding.bytes value = .ok bytes) :
    ∀ field ∈ encoding.fields, field.Holds value bytes := by
  obtain ⟨behind, hbehind, h⟩ := bind_eq_ok.mp h
  cases h
  cases operandBytes_eq_ok.mp hbehind with
  | nothing mode =>
    simp only [List.mem_cons, List.not_mem_nil, or_false] at mode
    rcases mode with mode | mode | mode <;> simp [fields, mode]
  | signature mode | short mode | long mode => simp [fields, mode]
  | @banks source destination mode hsource hdestination narrow =>
    intro field hfield
    simp only [fields, mode] at hfield
    rcases List.mem_append.mp hfield with hfirst | hsecond
    · exact encoding.field_holds [encoding.opcode.code] (littleEndian source.value 1) hdestination
        (Nat.le_of_eq narrow.2) rfl field hfirst
    · exact encoding.field_holds (encoding.opcode.code :: littleEndian destination.value 1) []
        hsource (Nat.le_of_eq narrow.1) rfl field hsecond
  | operand mode hnumber room =>
    have hheld := encoding.field_holds [encoding.opcode.code] [] hnumber
      (width_le_of_hasRoom room) rfl
    rw [fields_of_holdsOperand mode]
    rwa [List.append_nil] at hheld

/-- An item of data that is no text is written with its value. -/
theorem datumCode_number {width : DataWidth} {address : Int} {operand : Expr} {code : Code}
    (htext : operand.isText = false) (h : datumCode width value address operand = .ok code) :
    ∃ number, value operand = .ok number ∧ number.width ≤ width.bytes ∧
      code.bytes = littleEndian number.value width.bytes := by
  unfold datumCode at h
  dsimp only at h
  split at h
  case h_1 => cases htext
  case h_2 =>
    obtain ⟨number, hnumber, h⟩ := bind_eq_ok.mp h
    obtain ⟨hwidth, h⟩ := refuse_eq_ok.mp h
    cases h
    exact ⟨number, hnumber, by omega, rfl⟩

/-- The fields of data hold its items. -/
theorem dataCode_fields {width : DataWidth} {operands : List Expr} {address : Int} {code : Code}
    (h : dataCode width value address operands = .ok code) (before : List UInt8) :
    ∀ field ∈ dataFields width before.length operands,
      field.Holds value (before ++ code.bytes) := by
  induction operands generalizing address code before with
  | nil =>
    intro field hfield
    cases hfield
  | cons operand rest ih =>
    simp only [dataCode, bind_eq_ok, pure_eq_ok] at h
    obtain ⟨first, hfirst, others, hothers, rfl⟩ := h
    have hrest := ih hothers (before ++ first.bytes)
    rw [List.length_append, datumCode_length hfirst] at hrest
    rw [Code.bytes_append, ← List.append_assoc]
    intro field hfield
    rw [dataFields] at hfield
    cases htext : operand.isText with
    | true =>
      simp only [htext, if_true] at hfield
      exact hrest field hfield
    | false =>
      simp only [htext, Bool.false_eq_true, if_false, List.mem_cons] at hfield
      rcases hfield with rfl | hfield
      · obtain ⟨number, hnumber, hwidth, hbytes⟩ := datumCode_number htext hfirst
        refine ⟨number, hnumber, hwidth, ?_⟩
        rw [hbytes]
        exact OperandField.read_append _ _ rfl
      · exact hrest field hfield

/-- The fields of a fill hold its value. -/
theorem fillCode_fields {wide : Bool} {count : Nat} {number : Number} {address : Int} {code : Code}
    {operand : Expr} (hnumber : value operand = .ok number)
    (h : fillCode wide count number address = .ok code) :
    ∀ field ∈ fillFields wide count operand, field.Holds value code.bytes := by
  intro field hfield
  obtain ⟨index, hindex, rfl⟩ := List.mem_map.mp hfield
  obtain ⟨hword, h⟩ := refuse_eq_ok.mp h
  obtain ⟨hbyte, h⟩ := refuse_eq_ok.mp h
  cases h
  obtain ⟨rest, rfl⟩ : ∃ rest, count = index + (rest + 1) :=
    ⟨count - index - 1, by have := List.mem_range.mp hindex; omega⟩
  refine ⟨number, hnumber, ?_, ?_⟩
  · cases wide with
    | true => simpa using hword
    | false => exact Nat.le_of_eq (by simpa using hbyte)
  · rw [← List.replicate_append_replicate, List.flatten_append, List.replicate_succ,
      List.flatten_cons, ← List.append_assoc]
    exact OperandField.read_append _ _ (by simp)

end Writing

/-- The field of a case holds its value, whose width is checked when the case is laid out. -/
theorem caseCode_fields {flow : FlowState} {address : Int} {frame : FlowFrame} {switch : Nat}
    {nextAt : Option Int} {operand : Expr} {follows wide : Bool} {code : Code} {number : Number}
    {labels : List Resolution} {layout : Layout} (hnumber : operand.closedValue = .ok number)
    (hwidth : number.width ≤ if wide then 2 else 1)
    (h : FlowStep.caseCode flow address frame switch nextAt operand follows wide = .ok code) :
    OperandField.Holds (operandNumber labels layout) code.bytes
      ⟨operand, if wide then 2 else 1, (if follows then 2 else 0) + 1⟩ := by
  obtain ⟨found, leave, opcode, next, hfound, hbytes, hleave, -⟩ := caseCode_bytes h
  obtain rfl : number = found := Except.ok.inj (hnumber.symm.trans hfound)
  refine ⟨number, mapError_eq_ok.mpr (Expr.collapse_of_closedValue hnumber _), hwidth, ?_⟩
  have hsplit : code.bytes =
      leave ++ [opcode] ++ littleEndian number.value (if wide then 2 else 1) ++ next := by
    rw [hbytes]
    simp
  rw [hsplit]
  exact OperandField.read_append _ _ (by simp [hleave])

/-- The fields of an operation of both walks hold the values of its operands. -/
theorem Reached.fields_hold {environment : Environment} {actions : List Action}
    {final second : Layout} {placed : PlacedOperation} {location : Location}
    {labels : List Resolution} {emitted : Emitted}
    (h : Reached environment actions final placed location second)
    (hemits : emitOperation labels second placed = .ok emitted) :
    ∀ field ∈ placed.fields, emitted.layout = second ∧
      field.Holds (operandNumber labels second) emitted.code.bytes := by
  obtain ⟨calls, operation, found, others, -, hstems, -⟩ := h.stemsFrom
  intro field hfield
  unfold emitOperation at hemits
  cases placed with
  | instruction encoding =>
    obtain ⟨bytes, hbytes, hemits⟩ := bind_eq_ok.mp hemits
    cases hemits
    exact ⟨rfl, Encoding.bytes_fields hbytes field hfield⟩
  | data width operands =>
    obtain ⟨code, hcode, hemits⟩ := bind_eq_ok.mp hemits
    cases hemits
    exact ⟨rfl, dataCode_fields hcode [] field hfield⟩
  | fill wide count value =>
    obtain ⟨number, hnumber, hemits⟩ := bind_eq_ok.mp hemits
    obtain ⟨code, hcode, hemits⟩ := bind_eq_ok.mp hemits
    cases hemits
    exact ⟨rfl, fillCode_fields hnumber hcode field hfield⟩
  | flow step frame =>
    cases step with
    | caseStart value follows wide =>
      obtain ⟨code, hcode, hemits⟩ := bind_eq_ok.mp hemits
      cases hemits
      obtain ⟨operand, number, -, -, hnumber, hwidth⟩ := hstems
      obtain rfl := List.mem_singleton.mp hfield
      refine ⟨rfl, ?_⟩
      unfold FlowStep.code at hcode
      split at hcode
      case h_2 => cases hcode
      case h_1 =>
        unfold FlowStep.frameCode at hcode
        dsimp only at hcode
        split at hcode
        case h_1 => exact caseCode_fields hnumber hwidth hcode
        case h_2 => cases hcode
    | _ => cases hfield
  | _ => cases hfield

/-! ## Values -/

/-- The address of a label states the bytes it needs. -/
theorem labelScope_sound {labels : List Resolution} {key : Option String} {address : Int}
    {name : Name} {n : Number} (h : labelScope labels key address name = some n) : n.Sound := by
  simp only [labelScope, Option.bind_eq_bind, Option.bind_eq_some_iff] at h
  obtain ⟨current, -, found, -, h⟩ := h
  split at h
  case isTrue =>
    cases h
    exact Number.sound_of_requiredBytes (Nat.le_max_left _ _)
  case isFalse =>
    cases h
    exact Number.sound_of_requiredBytes (Nat.le_refl _)

/-- A field of at most three bytes holds a sound number whose stated width is within it. -/
theorem Number.Sound.inField {n : Number} {size : Nat} (h : n.Sound) (hwidth : n.width ≤ size)
    (hsize : size ≤ 3) : InField n.value size :=
  (h (by omega)).mono hwidth

/-- The value of an operand of both walks is sound, or the operand takes its width over. -/
theorem Reached.value_sound {program : Program} {search : AssetSearch} {main : SourceFile}
    {source : SourceLines} {final second : Layout} {placed : PlacedOperation}
    {location : Location} {labels : List Resolution} {field : OperandField} {number : Number}
    (h : Reached (program.environment search) program.actions final placed location second)
    (hread : readSource 0 main.name main.text [] = .ok source)
    (hbuilt : buildProgram search main source.lines = .ok program)
    (hfield : field ∈ placed.fields)
    (hnumber : field.operand.collapse (labelScope labels second.current second.address) =
      .ok number) :
    number.Sound ∨ field.operand.TakesWidth program.equates := by
  obtain ⟨hactions, hmacros, -⟩ := buildProgram_sound hread hbuilt
  have hliterals := h.soundLiterals hactions hmacros field.operand
    (PlacedOperation.mem_fields hfield).1
  exact Expr.collapse_sound (fun _ _ hfound => labelScope_sound hfound) hliterals hnumber

/-! ## Whole programs -/

/-- A field of an assembly and the value that it is written with. -/
structure AssemblyRun.FieldValue {search : AssetSearch} {main : SourceFile}
    (run : AssemblyRun search main) (deposit : Deposit) (field : OperandField) (number : Number) :
    Prop where
  /-- The value is that of the operand, with the labels seen from the operation. -/
  value : field.operand.collapse (labelScope run.labels deposit.segment deposit.address) =
    .ok number
  bytes : field.read deposit.bytes = littleEndian number.value field.size
  /-- The stated width is within the field. -/
  width : number.width ≤ field.size
  /-- The value is held by its stated width, or the operand takes its width over. -/
  sound : number.Sound ∨ field.operand.TakesWidth run.program.equates

/-- Every field of an assembly is written with a value whose stated width is within it. -/
theorem AssemblyRun.exists_fieldValue {search : AssetSearch} {main : SourceFile}
    (run : AssemblyRun search main) {deposit : Deposit} (hdeposit : deposit ∈ run.deposits)
    {field : OperandField} (hfield : field ∈ deposit.operation.fields) :
    ∃ number, run.FieldValue deposit field number := by
  obtain ⟨location, second, emitted, hreached, hemits, hfound⟩ := run.reached hdeposit
  obtain ⟨hlayout, number, hnumber, hwidth, hbytes⟩ := hreached.fields_hold hemits field hfield
  have hvalue := mapError_eq_ok.mp hnumber
  have hsound := hreached.value_sound run.read run.built hfield hvalue
  have hsegment : deposit.segment = second.current := by rw [hfound, Emitted.deposit, hlayout]
  have haddress : deposit.address = second.address := by rw [hfound, Emitted.deposit, hlayout]
  have hwritten : deposit.bytes = emitted.code.bytes := by rw [hfound, Emitted.deposit]
  rw [← hsegment, ← haddress] at hvalue
  rw [← hwritten] at hbytes
  exact ⟨number, hvalue, hbytes, hwidth, hsound⟩

/-- An operation whose operand has a value outside of its field fails, unless the operand takes its
width over. -/
theorem LayoutRun.field_overflow {search : AssetSearch} {main : SourceFile}
    (run : LayoutRun search main) (listing : Bool) {before after : List Event}
    {placed : PlacedOperation} {size : Nat} {location : Location} {emission : Emission}
    {field : OperandField} {number : Number}
    (hevents : stepEvents run.steps = before ++ .operation placed size location :: after)
    (hbefore : emitEvents run.labels (Emission.initial run.layout) before = .ok emission)
    (hfield : field ∈ placed.fields)
    (hnumber : field.operand.collapse
      (labelScope run.labels emission.layout.current emission.layout.address) = .ok number)
    (houtside : ¬InField number.value field.size)
    (htakes : ¬field.operand.TakesWidth run.program.equates) :
    ∃ fault, assemble search main listing =
      .error ⟨.failed ⟨fault, location⟩, run.program.sources⟩ := by
  obtain ⟨-, hreached⟩ := layoutProgram_reached run.laidOut hevents hbefore
  have hsound := (hreached.value_sound run.read run.built hfield hnumber).resolve_right htakes
  cases hemits : emitOperation run.labels emission.layout placed with
  | error fault =>
    refine ⟨fault, run.assemble_eq_error listing hevents hbefore ?_⟩
    exact bind_eq_error.mpr (.inl hemits)
  | ok emitted =>
    -- The value that is written would be this one, and sound values are in their fields.
    obtain ⟨-, found, hfound, hwidth, -⟩ := hreached.fields_hold hemits field hfield
    obtain rfl : number = found :=
      Except.ok.inj (hnumber.symm.trans (mapError_eq_ok.mp hfound))
    exact absurd (hsound.inField hwidth (PlacedOperation.mem_fields hfield).2) houtside

/-- A program that comes to a case whose value is outside of the range of its register is not laid
out, unless the value takes its width over. -/
theorem layoutProgram_case_overflow {search : AssetSearch} {main : SourceFile}
    {source : SourceLines} {program : Program} {found : Layout} {calls : List MacroCall}
    {operand bound : Expr} {location : Location} {others : List Task} {number : Number}
    (hread : readSource 0 main.name main.text [] = .ok source)
    (hbuilt : buildProgram search main source.lines = .ok program)
    (hwalk : WalksTo (program.environment search) Layout.empty (bodyTasks [] program.actions) found
      (.action calls (.operation (.flow (.caseStart operand)) location) :: others))
    (hprepared : Prepared (program.environment search) calls found.address operand bound)
    (hnumber : bound.closedValue = .ok number)
    (houtside : ∀ register, found.flow.switchRegister? = some register →
      ¬InField number.value (if register.isWide found.widths then 2 else 1))
    (htakes : ¬bound.TakesWidth program.equates) :
    ∃ failure, layoutProgram (program.environment search) program.actions = .error failure := by
  cases hlayout : layoutProgram (program.environment search) program.actions with
  | error failure => exact ⟨failure, rfl⟩
  | ok result =>
    obtain ⟨steps, layout⟩ := result
    obtain ⟨event, next, more, advanced⟩ := layoutProgram_advances hlayout hwalk
    simp only [Task.advance, placeOperation, bind_eq_ok, failingAt_eq_ok] at advanced
    obtain ⟨-, ⟨⟨step, frame, size, mid⟩, hplaced, -⟩, -⟩ := advanced
    obtain ⟨value, follows, wide, rfl⟩ := placeFlow_of_caseStart hplaced
    obtain ⟨written, stated, register, hwritten, hvalue, hregister, rfl, hwidth⟩ :=
      placeFlow_caseStart hplaced
    cases hwritten
    obtain ⟨argued, hargued, hequated, hclosed⟩ := caseValue_eq_ok hvalue
    obtain ⟨argued', hargued', hequated'⟩ := hprepared
    obtain rfl := Except.ok.inj (hargued.symm.trans hargued')
    obtain rfl := Except.ok.inj (hequated.symm.trans hequated')
    obtain rfl := Except.ok.inj (hnumber.symm.trans hclosed)
    -- The value that is laid out is this one, and sound values are in their fields.
    obtain ⟨hactions, hmacros, -⟩ := buildProgram_sound hread hbuilt
    obtain ⟨hcalls, hoperands⟩ := hwalk.sound hactions hmacros
    have hliterals := Prepared.sound ⟨argued, hargued, hequated⟩ hcalls
      (hoperands operand (List.mem_singleton_self operand))
    have hsound := (Expr.collapse_sound (fun _ _ h => by cases h) hliterals hclosed).resolve_right
      htakes
    refine absurd (hsound.inField hwidth ?_) (houtside register hregister)
    split <;> omega

/-- No operand is truncated whose stated width holds its value. In an assembly that succeeds every
field is written with the value of its operand; the value is in the range of the field, unsigned or
in two's complement, and determined by the bytes, unless the operand is a negative sign, a
complement or an equate and carries a width that does not hold the value. An equate does so only
when its definition is such an operand. Any other value outside of the range makes the assembly
fail: in the second walk, or for a case in the first. -/
theorem fields_determine_operands (search : AssetSearch) (main : SourceFile) (listing : Bool) :
    (∀ assembly, assemble search main listing = .ok assembly →
      ∃ run : AssemblyRun search main, assembly.segments = run.emission.segmentCode ∧
        (∀ deposit ∈ run.deposits, ∀ field ∈ deposit.operation.fields,
          ∃ number, run.FieldValue deposit field number ∧
            (InField number.value field.size ∧
                (0 ≤ number.value →
                  (Encoding.unsignedField (field.read deposit.bytes) : Int) = number.value) ∧
                (number.value < 0 →
                  Encoding.signedField (field.read deposit.bytes) = number.value) ∨
              ¬number.Sound ∧ field.operand.TakesWidth run.program.equates)) ∧
        ∀ name n, run.program.equates.get? name = some n →
          n.Sound ∨ run.program.sources.TakesWidth name n) ∧
    (∀ (run : LayoutRun search main) before placed size location after emission field number,
      stepEvents run.steps = before ++ .operation placed size location :: after →
      emitEvents run.labels (Emission.initial run.layout) before = .ok emission →
      field ∈ placed.fields →
      field.operand.collapse
        (labelScope run.labels emission.layout.current emission.layout.address) = .ok number →
      ¬InField number.value field.size → ¬field.operand.TakesWidth run.program.equates →
        ∃ fault, assemble search main listing =
          .error ⟨.failed ⟨fault, location⟩, run.program.sources⟩) ∧
    ∀ source program found calls operand bound location others number,
      readSource 0 main.name main.text [] = .ok source →
      buildProgram search main source.lines = .ok program →
      WalksTo (program.environment search) Layout.empty (bodyTasks [] program.actions) found
        (.action calls (.operation (.flow (.caseStart operand)) location) :: others) →
      Prepared (program.environment search) calls found.address operand bound →
      bound.closedValue = .ok number →
      (∀ register, found.flow.switchRegister? = some register →
        ¬InField number.value (if register.isWide found.widths then 2 else 1)) →
      ¬bound.TakesWidth program.equates →
        ∃ failure, assemble search main listing = .error ⟨.failed failure, program.sources⟩ := by
  refine ⟨?_, ?_, ?_⟩
  · intro assembly h
    obtain ⟨run, hsegments⟩ := assemble_run h
    obtain ⟨-, -, hequates⟩ : SoundOperands run.program.equates _ ∧ _ :=
      buildProgram_sound run.read run.built
    refine ⟨run, hsegments, ?_, hequates⟩
    intro deposit hdeposit field hfield
    obtain ⟨number, hvalue⟩ := run.exists_fieldValue hdeposit hfield
    refine ⟨number, hvalue, ?_⟩
    by_cases hsound : number.Sound
    · have hin := hsound.inField hvalue.width (PlacedOperation.mem_fields hfield).2
      rw [hvalue.bytes]
      exact .inl ⟨hin, hin.readBack⟩
    · exact .inr ⟨hsound, hvalue.sound.resolve_left hsound⟩
  · intro run before placed size location after emission field number hevents hbefore hfield
      hnumber houtside htakes
    exact run.field_overflow listing hevents hbefore hfield hnumber houtside htakes
  · intro source program found calls operand bound location others number hread hbuilt hwalk
      hprepared hnumber houtside htakes
    obtain ⟨failure, hfailure⟩ :=
      layoutProgram_case_overflow hread hbuilt hwalk hprepared hnumber houtside htakes
    exact ⟨failure, assemble_eq_error_of_emit hread hbuilt (bind_eq_error.mpr (.inl hfailure))⟩

/-- A negative byte, an equate, and an immediate operand. -/
theorem fields_determine_operands_bytes :
    ∃ main : SourceFile,
      main.text = "b=-3\n .segment \"c\",0x8000,9,0\n .c\n .db 255,b\n lda #b+4\n" ∧
      ∃ assembly, assemble ⟨.ofTable [], []⟩ main false = .ok assembly ∧
        ∃ run : AssemblyRun ⟨.ofTable [], []⟩ main, ∀ deposit ∈ run.deposits,
          ∀ field ∈ deposit.operation.fields, ∃ number, run.FieldValue deposit field number ∧
            (InField number.value field.size ∨
              ¬number.Sound ∧ field.operand.TakesWidth run.program.equates) := by
  refine ⟨⟨"bytes.s", _⟩, rfl, (exists_of_isOk ?_).imp fun assembly h => ⟨h, ?_⟩⟩
  · decide +kernel
  · obtain ⟨run, -, hfields, -⟩ := (fields_determine_operands _ _ _).1 assembly h
    refine ⟨run, fun deposit hdeposit field hfield => ?_⟩
    obtain ⟨number, hvalue, hrange⟩ := hfields deposit hdeposit field hfield
    exact ⟨number, hvalue, hrange.imp And.left id⟩

/-- A difference of -200 states two bytes, and is refused for a field of one. -/
example : (match assemble ⟨.ofTable [], []⟩
      ⟨"difference.s", " .segment \"c\",0x8000,9,0\n .c\n .db 0-200\n"⟩ false with
    | .error ⟨.failed ⟨.tooLarge cause, _⟩, _⟩ => some cause
    | _ => none) = some (.data "DB") := by
  decide +kernel

/-- Whether an operation has a field whose operand has a value outside of it. -/
def Deposit.truncates (labels : List Resolution) (deposit : Deposit) : Bool :=
  deposit.operation.fields.any fun field =>
    (field.operand.collapse (labelScope labels deposit.segment deposit.address)).toOption.any
      fun number => decide (field.read deposit.bytes = littleEndian number.value field.size ∧
        ¬InField number.value field.size)

/-- A field that is written with a value outside of it. -/
theorem Deposit.exists_of_truncates {labels : List Resolution} {deposit : Deposit}
    (h : deposit.truncates labels = true) :
    ∃ field ∈ deposit.operation.fields, ∃ number,
      field.operand.collapse (labelScope labels deposit.segment deposit.address) = .ok number ∧
      field.read deposit.bytes = littleEndian number.value field.size ∧
      ¬InField number.value field.size := by
  obtain ⟨field, hfield, h⟩ := List.any_eq_true.mp h
  obtain ⟨number, hnumber, h⟩ := exists_ok_of_any _ h
  exact ⟨field, hfield, number, hnumber, of_decide_eq_true h⟩

/-- The opposite of 200 states one byte, and is written as 56. -/
theorem fields_truncate_sign :
    ∃ main : SourceFile, main.text = " .segment \"c\",0x8000,9,0\n .c\n .db -200\n" ∧
      ∃ run : AssemblyRun ⟨.ofTable [], []⟩ main,
        (∃ assembly, assemble ⟨.ofTable [], []⟩ main false = .ok assembly) ∧
        ∃ deposit ∈ run.deposits, ∃ field ∈ deposit.operation.fields, ∃ number,
          field.operand.collapse (labelScope run.labels deposit.segment deposit.address) =
            .ok number ∧
          field.read deposit.bytes = littleEndian number.value field.size ∧
          ¬InField number.value field.size := by
  refine ⟨⟨"sign.s", _⟩, rfl, (AssemblyRun.exists_of_any
    (fun run => run.deposits.any (Deposit.truncates run.labels)) ?_).imp
      fun run h => ⟨run.assembles false, ?_⟩⟩
  · decide +kernel
  · obtain ⟨deposit, hdeposit, htruncates⟩ := List.any_eq_true.mp h
    exact ⟨deposit, hdeposit, Deposit.exists_of_truncates htruncates⟩

end Asm65816
