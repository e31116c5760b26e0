import Asm65816.Program.Emission
import Asm65816.Proofs.FlowCode

/-!
# The length of an operation

A laid-out operation determines how many bytes it takes, before its operands have values. The
first walk sizes operations by this length, and whatever the second walk emits has it.
-/

namespace Asm65816

/-- The number of bytes of a flow statement. -/
def FlowStep.length : FlowStep → Nat
  | ifEnd _ | loopStart | switchStart _ | switchEnd _ => 0
  | ifStart _ | elseStart _ | loopUntil _ | whileStart _ | whileEnd _ => 2
  | loopForever long => if long then 3 else 2
  | caseStart _ follows wide => (if follows then 2 else 0) + (if wide then 3 else 2) + 2

/-- The number of bytes of an instruction. -/
def Encoding.length (encoding : Encoding) : Nat :=
  encoding.opcode.mode.size + if encoding.opcode.mode = .immediate ∧ encoding.wide then 1 else 0

/-- The number of bytes of one item of a data directive. -/
def datumLength (width : DataWidth) : Expr → Nat
  | .text content _ => content.utf8ByteSize
  | _ => width.bytes

/-- The number of bytes of a data directive. -/
def dataLength (width : DataWidth) : List Expr → Nat
  | [] => 0
  | operand :: rest => datumLength width operand + dataLength width rest

/-- The number of bytes that an operation takes. -/
def PlacedOperation.length : PlacedOperation → Nat
  | .instruction encoding => encoding.length
  | .data width operands => dataLength width operands
  | .fill wide count _ => if wide then count * 2 else count
  | .includeBinary _ bytes => bytes.length
  | .flow step _ => step.length
  | _ => 0

private theorem toListLoop_length (bytes : ByteArray) (index : Nat) (taken : List UInt8) :
    (ByteArray.toList.loop bytes index taken).length = taken.length + (bytes.size - index) := by
  induction index, taken using ByteArray.toList.loop.induct bytes with
  | case1 index taken hindex ih =>
    rw [ByteArray.toList.loop, if_pos hindex, ih, List.length_cons]
    omega
  | case2 index taken hindex =>
    rw [ByteArray.toList.loop, if_neg hindex, List.length_reverse]
    omega

/-- A text has as many bytes as its size says. -/
theorem utf8Bytes_length (text : String) : (utf8Bytes text).length = text.utf8ByteSize := by
  rw [utf8Bytes, ByteArray.toList, toListLoop_length]
  simp

/-- The shifted character set does not change the number of bytes. -/
theorem petscii_length (text : String) : (petscii text).length = text.utf8ByteSize := by
  rw [petscii, List.length_map, utf8Bytes_length]

/-- Every mode has at least the opcode. -/
theorem AddressingMode.size_pos (mode : AddressingMode) : 0 < mode.size := by
  cases mode <;> decide

/-- An instruction takes up to four bytes before the registers are looked at. -/
theorem AddressingMode.size_le (mode : AddressingMode) : mode.size ≤ 4 := by
  cases mode <;> decide

/-- Whether what stands behind the opcode is the operand itself. -/
def AddressingMode.holdsOperand : AddressingMode → Bool
  | implied | accumulator | stack | interrupt | blockMove | relative | relativeLong => false
  | _ => true

/-- Whether there is room for a number in the rest of an instruction. -/
def Encoding.HasRoom (encoding : Encoding) (number : Number) : Prop :=
  if encoding.length = 2 then number.width = 1 else number.width < encoding.length

instance (encoding : Encoding) : DecidablePred encoding.HasRoom := fun number =>
  inferInstanceAs (Decidable (if encoding.length = 2 then number.width = 1
    else number.width < encoding.length))

theorem AddressingMode.two_le_size {mode : AddressingMode} (h : mode.holdsOperand = true) :
    2 ≤ mode.size := by
  cases mode <;> first | decide | cases h

/-- What an instruction writes behind its opcode: nothing, an empty signature, the banks of a block
move, the distance to a target within reach, or an operand that it has room for. -/
inductive Encoding.Writes (encoding : Encoding) (value : Expr → Except Fault Number) :
    List UInt8 → Prop where
  | nothing (mode : encoding.opcode.mode ∈ [.implied, .accumulator, .stack]) :
      Writes encoding value []
  | signature (mode : encoding.opcode.mode = .interrupt) : Writes encoding value [0]
  | banks {source destination : Number} (mode : encoding.opcode.mode = .blockMove)
      (first : encoding.operandValue value 0 = .ok source)
      (second : encoding.operandValue value 1 = .ok destination)
      (narrow : source.width = 1 ∧ destination.width = 1) :
      Writes encoding value (littleEndian destination.value 1 ++ littleEndian source.value 1)
  | short {target : Number} (mode : encoding.opcode.mode = .relative)
      (found : encoding.operandValue value 0 = .ok target)
      (reached : -128 ≤ encoding.displacement 2 target.value ∧
        encoding.displacement 2 target.value ≤ 127) :
      Writes encoding value (littleEndian (encoding.displacement 2 target.value) 1)
  | long {target : Number} (mode : encoding.opcode.mode = .relativeLong)
      (found : encoding.operandValue value 0 = .ok target)
      (reached : -32768 ≤ encoding.displacement 3 target.value ∧
        encoding.displacement 3 target.value ≤ 32767) :
      Writes encoding value (littleEndian (encoding.displacement 3 target.value) 2)
  | operand {number : Number} (mode : encoding.opcode.mode.holdsOperand = true)
      (found : encoding.operandValue value 0 = .ok number)
      (room : encoding.HasRoom number) :
      Writes encoding value (littleEndian number.value (encoding.length - 1))

namespace Encoding

variable {encoding : Encoding} {value : Expr → Except Fault Number} {bytes : List UInt8}

theorem length_of_immediate (h : encoding.opcode.mode = .immediate) :
    encoding.length = if encoding.wide then 3 else 2 := by
  simp only [length, h, AddressingMode.size, true_and]
  split <;> rfl

theorem length_of_ne_immediate (h : encoding.opcode.mode ≠ .immediate) :
    encoding.length = encoding.opcode.mode.size := by
  rw [length, if_neg fun hwide => h hwide.1, Nat.add_zero]

theorem length_pos : 0 < encoding.length := Nat.add_pos_left encoding.opcode.mode.size_pos _

theorem length_le : encoding.length ≤ 5 := by
  have hmode := encoding.opcode.mode.size_le
  unfold length
  split <;> omega

/-- An operand takes at least one byte. -/
theorem two_le_length (encoding : Encoding) (h : encoding.opcode.mode.holdsOperand = true) :
    2 ≤ encoding.length :=
  Nat.le_add_right_of_le (AddressingMode.two_le_size h)

theorem hasRoom_of_width {number : Number} (hpos : 1 ≤ number.width)
    (hwidth : number.width ≤ encoding.length - 1) : encoding.HasRoom number := by
  unfold HasRoom
  split <;> omega

theorem width_le_of_hasRoom {number : Number} (h : encoding.HasRoom number) :
    number.width ≤ encoding.length - 1 := by
  unfold HasRoom at h
  split at h <;> omega

/-- An operand is written when there is room for it. -/
theorem operandBytes_of_holdsOperand (h : encoding.opcode.mode.holdsOperand = true) :
    ∃ cause, ∀ value, encoding.operandBytes value =
      (encoding.operandValue value 0 >>= fun number =>
        if encoding.HasRoom number then return littleEndian number.value (encoding.length - 1)
        else .error (.tooLarge cause)) := by
  unfold operandBytes
  dsimp only
  split
  case h_5 hmode =>
    have hlength := length_of_immediate hmode
    split at hlength
    case isTrue hwide =>
      refine ⟨.operand (if encoding.opcode.rule = .accumulator then "immediate-long-accumulator"
        else "immediate-long-index"), fun value => bind_congr fun number => ?_⟩
      rw [if_pos hwide, hlength, ← ite_not]
      refine ite_congr (propext ?_) (fun _ => rfl) fun _ => rfl
      rw [HasRoom, hlength, if_neg (by decide)]
      omega
    case isFalse hwide =>
      refine ⟨.operand encoding.opcode.mode.describe, fun value => bind_congr fun number => ?_⟩
      rw [if_neg hwide, hlength, ← ite_not]
      refine ite_congr (propext ?_) (fun _ => rfl) fun _ => rfl
      rw [HasRoom, hlength, if_pos rfl, Decidable.not_not]
  case h_9 himmediate _ _ _ =>
    refine ⟨.operand encoding.opcode.mode.describe, fun value => bind_congr fun number => ?_⟩
    have hpos := encoding.length_pos
    rw [← length_of_ne_immediate himmediate, ← ite_not]
    refine ite_congr (propext ?_) (fun _ => rfl) fun _ => rfl
    unfold HasRoom
    split <;> split <;> omega
  all_goals
    rename_i hmode
    rw [hmode] at h
    cases h

/-- What the instruction writes is behind its opcode. -/
theorem Writes.operandBytes_eq (h : encoding.Writes value bytes) :
    encoding.operandBytes value = .ok bytes := by
  cases h with
  | nothing mode =>
    simp only [List.mem_cons, List.not_mem_nil, or_false] at mode
    rcases mode with mode | mode | mode <;> rw [operandBytes, mode] <;> rfl
  | signature mode =>
    rw [operandBytes, mode]
    rfl
  | banks mode first second narrow =>
    simp only [operandBytes, mode, first, second, ok_bind]
    rw [if_neg (by omega)]
    rfl
  | short mode found reached | long mode found reached =>
    simp only [operandBytes, mode, found, ok_bind, reached, and_self, if_true]
    rfl
  | operand mode found room =>
    obtain ⟨cause, hbytes⟩ := operandBytes_of_holdsOperand mode
    rw [hbytes, found, ok_bind, if_pos room]
    rfl

/-- The bytes behind the opcode are what the instruction writes there. -/
theorem operandBytes_eq_ok :
    encoding.operandBytes value = .ok bytes ↔ encoding.Writes value bytes := by
  constructor
  · intro h
    cases hholds : encoding.opcode.mode.holdsOperand with
    | true =>
      obtain ⟨cause, hbytes⟩ := operandBytes_of_holdsOperand hholds
      rw [hbytes, bind_eq_ok] at h
      obtain ⟨number, hnumber, h⟩ := h
      obtain ⟨hroom, h⟩ := demand_eq_ok.mp h
      obtain rfl := pure_eq_ok.mp h
      exact .operand hholds hnumber hroom
    | false =>
      unfold operandBytes at h
      cases hmode : encoding.opcode.mode with
      | implied | accumulator | stack =>
        simp only [hmode, pure_eq_ok] at h
        subst h
        exact .nothing (by simp [hmode])
      | interrupt =>
        simp only [hmode, pure_eq_ok] at h
        subst h
        exact .signature hmode
      | blockMove =>
        simp only [hmode, bind_eq_ok, refuse_eq_ok, pure_eq_ok] at h
        obtain ⟨source, hsource, destination, hdestination, hwidths, rfl⟩ := h
        exact .banks hmode hsource hdestination (by omega)
      | relative =>
        simp only [hmode, bind_eq_ok, demand_eq_ok, pure_eq_ok] at h
        obtain ⟨target, htarget, hreached, rfl⟩ := h
        exact .short hmode htarget hreached
      | relativeLong =>
        simp only [hmode, bind_eq_ok, demand_eq_ok, pure_eq_ok] at h
        obtain ⟨target, htarget, hreached, rfl⟩ := h
        exact .long hmode htarget hreached
      | _ =>
        rw [hmode] at hholds
        cases hholds
  · exact Writes.operandBytes_eq

/-- The bytes behind the opcode fill the instruction. -/
theorem operandBytes_length (h : encoding.operandBytes value = .ok bytes) :
    1 + bytes.length = encoding.length := by
  cases operandBytes_eq_ok.mp h with
  | nothing mode =>
    simp only [List.mem_cons, List.not_mem_nil, or_false] at mode
    rcases mode with mode | mode | mode <;> simp [length, mode, AddressingMode.size]
  | signature mode | banks mode | short mode | long mode =>
    simp [length, mode, AddressingMode.size]
  | operand =>
    have hpos := encoding.length_pos
    rw [littleEndian_length]
    omega

end Encoding

/-- An instruction has the length that its mode and the register widths give it. -/
theorem Encoding.bytes_length {encoding : Encoding} {value : Expr → Except Fault Number}
    {bytes : List UInt8} (h : encoding.bytes value = .ok bytes) :
    bytes.length = encoding.length := by
  simp only [Encoding.bytes, bind_eq_ok, pure_eq_ok] at h
  obtain ⟨operand, hoperand, rfl⟩ := h
  rw [List.length_cons, Nat.add_comm, operandBytes_length hoperand]

/-- An item of a data directive has the length of its text or of its width. -/
theorem datumCode_length {width : DataWidth} {value : Expr → Except Fault Number} {address : Int}
    {operand : Expr} {code : Code} (h : datumCode width value address operand = .ok code) :
    code.bytes.length = datumLength width operand := by
  unfold datumCode at h
  split at h
  case h_1 content shifted =>
    obtain rfl := pure_eq_ok.mp h
    cases shifted with
    | true => exact petscii_length content
    | false => exact utf8Bytes_length content
  case h_2 htext =>
    simp only [bind_eq_ok, refuse_eq_ok, pure_eq_ok] at h
    obtain ⟨number, -, -, rfl⟩ := h
    rw [littleEndian_length]
    cases operand with
    | text content shifted => exact (htext content shifted rfl).elim
    | _ => rfl

/-- A data directive has the length of its items together. -/
theorem dataCode_length {width : DataWidth} {value : Expr → Except Fault Number}
    {operands : List Expr} {address : Int} {code : Code}
    (h : dataCode width value address operands = .ok code) :
    code.bytes.length = dataLength width operands := by
  induction operands generalizing address code with
  | nil =>
    obtain rfl : Code.none = code := by simpa only [dataCode, Except.ok.injEq] using h
    rfl
  | cons operand rest ih =>
    simp only [dataCode, bind_eq_ok, pure_eq_ok] at h
    obtain ⟨first, hfirst, others, hothers, rfl⟩ := h
    rw [Code.bytes_append, List.length_append, datumCode_length hfirst, ih hothers,
      dataLength]

/-- A fill directive has the length of its items together. -/
theorem fillCode_length {wide : Bool} {count : Nat} {number : Number} {address : Int}
    {code : Code} (h : fillCode wide count number address = .ok code) :
    code.bytes.length = if wide then count * 2 else count := by
  simp only [fillCode, refuse_eq_ok, Except.ok.injEq] at h
  obtain ⟨-, -, rfl⟩ := h
  cases wide with
  | true => simp
  | false => simp

/-- A short branch has two bytes. -/
theorem shortBranch_length {mnemonic : String} {address target : Int} {outOfReach : BranchFault}
    {comment : Option String} {code : Code}
    (h : shortBranch mnemonic address target outOfReach comment = .ok code) :
    code.bytes.length = 2 := by
  simp only [shortBranch, demand_eq_ok, bind_eq_ok, pure_eq_ok] at h
  obtain ⟨-, opcode, -, rfl⟩ := h
  simp

/-- A long branch has three bytes. -/
theorem longBranch_length {mnemonic : String} {address target : Int} {outOfReach : BranchFault}
    {comment : Option String} {code : Code}
    (h : longBranch mnemonic address target outOfReach comment = .ok code) :
    code.bytes.length = 3 := by
  simp only [longBranch, demand_eq_ok, bind_eq_ok, pure_eq_ok] at h
  obtain ⟨-, opcode, -, rfl⟩ := h
  simp

/-- The bytes of a case around the field of its value. -/
theorem caseCode_bytes {flow : FlowState} {address : Int} {frame : FlowFrame} {switch : Nat}
    {nextAt : Option Int} {value : Expr} {follows wide : Bool} {code : Code}
    (h : FlowStep.caseCode flow address frame switch nextAt value follows wide = .ok code) :
    ∃ number leave opcode next, value.closedValue = .ok number ∧
      code.bytes = leave ++ opcode :: littleEndian number.value (if wide then 2 else 1) ++ next ∧
      leave.length = (if follows then 2 else 0) ∧ next.length = 2 := by
  obtain ⟨register, endAt, number, leave, compare, target, next, -, hnumber, hleave, hcompare, -,
    hnext, rfl⟩ := caseCode_eq_ok h
  refine ⟨number, leave.bytes, register.opcode, next.bytes, hnumber, ?_, ?_,
    shortBranch_length hnext⟩
  · rw [Code.bytes_append, Code.bytes_append, caseComparison_eq_ok hcompare]
  · cases follows with
    | true =>
      obtain ⟨out, -, hbranch⟩ := hleave
      exact shortBranch_length hbranch
    | false =>
      obtain rfl : leave = Code.none := hleave
      rfl

/-- A case has the length of its branches and its comparison. -/
theorem caseCode_length {flow : FlowState} {address : Int} {frame : FlowFrame} {switch : Nat}
    {nextAt : Option Int} {value : Expr} {follows wide : Bool} {code : Code}
    (h : FlowStep.caseCode flow address frame switch nextAt value follows wide = .ok code) :
    code.bytes.length = (FlowStep.caseStart value follows wide).length := by
  obtain ⟨number, leave, opcode, next, -, hbytes, hleave, hnext⟩ := caseCode_bytes h
  simp only [hbytes, List.length_append, List.length_cons, littleEndian_length, hleave, hnext,
    FlowStep.length]
  cases wide with
  | true => rfl
  | false => rfl

/-- A flow statement has the length of its branches. -/
theorem FlowStep.code_length {flow : FlowState} {address : Int} {number : Nat} {step : FlowStep}
    {code : Code} (h : step.code flow address number = .ok code) :
    code.bytes.length = step.length := by
  unfold FlowStep.code at h
  split at h
  case h_2 => cases h
  case h_1 frame _ =>
    unfold FlowStep.frameCode at h
    cases step with
    | ifStart condition =>
      dsimp only at h
      split at h
      case h_1 found elseAt endAt _ =>
        cases elseAt with
        | some elseAt => exact shortBranch_length h
        | none =>
          obtain ⟨target, -, h⟩ := bind_eq_ok.mp h
          exact shortBranch_length h
      case h_2 => cases h
    | elseStart condition | whileStart condition =>
      dsimp only at h
      split at h
      · obtain ⟨target, -, h⟩ := bind_eq_ok.mp h
        exact shortBranch_length h
      · cases h
    | caseStart value follows wide =>
      dsimp only at h
      split at h
      · exact caseCode_length h
      · cases h
    | loopUntil condition => exact shortBranch_length h
    | whileEnd condition => exact shortBranch_length h
    | loopForever long =>
      cases long with
      | true => exact longBranch_length h
      | false => exact shortBranch_length h
    | ifEnd condition | switchStart register | switchEnd register =>
      obtain rfl := pure_eq_ok.mp h
      rfl
    | loopStart =>
      obtain rfl := pure_eq_ok.mp h
      rfl

/-- Whatever an operation emits has its length. -/
theorem emitOperation_length {labels : List Resolution} {layout : Layout}
    {operation : PlacedOperation} {emitted : Emitted}
    (h : emitOperation labels layout operation = .ok emitted) :
    emitted.code.bytes.length = operation.length := by
  unfold emitOperation at h
  cases operation with
  | instruction encoding =>
    simp only [bind_eq_ok, pure_eq_ok] at h
    obtain ⟨bytes, hbytes, rfl⟩ := h
    exact Encoding.bytes_length hbytes
  | data width operands =>
    simp only [bind_eq_ok, pure_eq_ok] at h
    obtain ⟨code, hcode, rfl⟩ := h
    exact dataCode_length hcode
  | fill wide count operand =>
    simp only [bind_eq_ok, pure_eq_ok] at h
    obtain ⟨number, -, code, hcode, rfl⟩ := h
    exact fillCode_length hcode
  | flow step frame =>
    simp only [bind_eq_ok, pure_eq_ok] at h
    obtain ⟨code, hcode, rfl⟩ := h
    exact FlowStep.code_length hcode
  | changeSegment name =>
    simp only [bind_eq_ok, pure_eq_ok] at h
    obtain ⟨entered, -, found, -, rfl⟩ := h
    rfl
  | setOrigin address =>
    simp only [bind_eq_ok, pure_eq_ok] at h
    obtain ⟨found, -, rfl⟩ := h
    rfl
  | _ =>
    obtain rfl := pure_eq_ok.mp h
    rfl

end Asm65816
