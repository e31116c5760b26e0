import Asm65816.Proofs.FlowCode
import Asm65816.Proofs.HexReader
import Asm65816.Proofs.Length
import Asm65816.Proofs.PlacedBytes
import Asm65816.Proofs.RowReader
import Asm65816.Program.Emission

/-!
# The rows that show the bytes of a code

Every operation makes up its own rows for the listing, beside its bytes: data in pieces of four
bytes, an instruction in one row, a case in a row for each of its instructions. Whatever the
operation, its rows hold its bytes in order and at the addresses at which they are placed, and the
line of each row shows its address and its bytes.

The rows of instructions and flow statements say more: each of them is one machine instruction.
-/

namespace Asm65816

/-- A row of a listing: bytes at an address, and the line that shows them. -/
structure ListingRow where
  address : Int
  bytes : List UInt8
  line : String
  deriving DecidableEq, Repr

/-- The bytes of a row with their addresses. -/
def ListingRow.cells (row : ListingRow) : List (Int × UInt8) := cellsFrom row.address row.bytes

/-- A row whose line shows its bytes, and its address within 24 bits. -/
def ListingRow.Legible (row : ListingRow) : Prop :=
  readRow row.line = some (row.address % 0x1000000, row.bytes)

/-- A part of the text of a listing: a row, or lines that show no bytes. -/
inductive ListingPart where
  | row (shown : ListingRow)
  | remark (content : String)

namespace ListingPart

/-- A part as it is shown. -/
def text : ListingPart → String
  | row shown => shown.line
  | remark content => content

/-- The row that a part is, if it is one. -/
def row? : ListingPart → Option ListingRow
  | row shown => some shown
  | remark _ => none

end ListingPart

/-- The rows of data that is cut into pieces; only the first one names the instruction. -/
def pieceRows (address : Int) (instruction : String) : List (List UInt8) → List ListingRow
  | [] => []
  | bytes :: rest =>
    ⟨address, bytes, renderRow address bytes instruction none⟩ ::
      pieceRows (address + bytes.length) "" rest

/-- The lines of the rows of data. -/
theorem map_line_pieceRows (address : Int) (instruction : String) (parts : List (List UInt8)) :
    (pieceRows address instruction parts).map ListingRow.line =
      dataRows address instruction parts := by
  induction parts generalizing address instruction with
  | nil => rfl
  | cons bytes rest ih => rw [pieceRows, List.map_cons, ih, dataRows]

/-- The rows of data hold its pieces one behind the other. -/
theorem cells_pieceRows (address : Int) (instruction : String) (parts : List (List UInt8)) :
    (pieceRows address instruction parts).flatMap ListingRow.cells =
      cellsFrom address parts.flatten := by
  induction parts generalizing address instruction with
  | nil => rfl
  | cons bytes rest ih =>
    rw [pieceRows, List.flatMap_cons, ih, List.flatten_cons, cellsFrom_append]
    rfl

/-- The rows of data show its pieces when these are short. -/
theorem pieceRows_legible {address : Int} {instruction : String} {parts : List (List UInt8)}
    (h : ∀ part ∈ parts, part.length ≤ 8) :
    ∀ row ∈ pieceRows address instruction parts, row.Legible := by
  induction parts generalizing address instruction with
  | nil => exact fun row hrow => nomatch hrow
  | cons bytes rest ih =>
    obtain ⟨hbytes, hrest⟩ := List.forall_mem_cons.mp h
    rw [pieceRows, List.forall_mem_cons]
    exact ⟨readRow_renderRow address instruction none hbytes, ih hrest⟩

namespace ListingItem

/-- The parts of an item. -/
def parts : ListingItem → List ListingPart
  | row address bytes instruction comment =>
    [.row ⟨address, bytes, renderRow address bytes instruction comment⟩]
  | data address bytes instruction =>
    (pieceRows address instruction (pieces 4 bytes)).map ListingPart.row
  | item => [.remark item.render]

/-- The rows of an item. -/
def rows (item : ListingItem) : List ListingRow := item.parts.filterMap ListingPart.row?

/-- An item is shown part by part. -/
theorem render_eq (item : ListingItem) :
    item.render = String.join (item.parts.map ListingPart.text) := by
  cases item with
  | data address bytes instruction =>
    rw [parts, List.map_map]
    change renderData address bytes instruction = String.join (List.map ListingRow.line _)
    rw [map_line_pieceRows, renderData]
  | _ => simp [parts, render, ListingPart.text]

/-- The rows of data. -/
theorem rows_data (address : Int) (bytes : List UInt8) (instruction : String) :
    (data address bytes instruction).rows = pieceRows address instruction (pieces 4 bytes) := by
  rw [rows, parts, List.filterMap_map]
  exact List.filterMap_some

end ListingItem

namespace Code

/-- The rows of a code. -/
def rows (code : Code) : List ListingRow := code.items.flatMap ListingItem.rows

/-- The rows of a code hold its bytes in order, from `address` up, and their lines show them. -/
structure ShownAt (code : Code) (address : Int) : Prop where
  cells : code.rows.flatMap ListingRow.cells = cellsFrom address code.bytes
  legible : ∀ row ∈ code.rows, row.Legible

@[simp] theorem rows_append (first second : Code) :
    (first ++ second).rows = first.rows ++ second.rows :=
  List.flatMap_append

/-- Codes that show their bytes one behind the other do so together. -/
theorem ShownAt.append {first second : Code} {address : Int} (hfirst : first.ShownAt address)
    (hsecond : second.ShownAt (address + first.bytes.length)) :
    (first ++ second).ShownAt address := by
  constructor
  · rw [rows_append, List.flatMap_append, hfirst.cells, hsecond.cells, bytes_append,
      cellsFrom_append]
  · rw [rows_append]
    exact List.forall_mem_append.mpr ⟨hfirst.legible, hsecond.legible⟩

/-- A code without bytes and rows shows all there is. -/
theorem ShownAt.of_nil {code : Code} (hbytes : code.bytes = []) (hrows : code.rows = [])
    (address : Int) : code.ShownAt address := by
  constructor
  · rw [hbytes, hrows]
    rfl
  · rw [hrows]
    exact fun row hrow => nomatch hrow

/-- One row shows its bytes where it has room for them. -/
theorem ShownAt.single {code : Code} {address : Int} {instruction : String}
    {comment : Option String} (hlength : code.bytes.length ≤ 8)
    (hrows : code.rows =
      [⟨address, code.bytes, renderRow address code.bytes instruction comment⟩]) :
    code.ShownAt address := by
  constructor
  · rw [hrows, List.flatMap_singleton]
    rfl
  · rw [hrows, List.forall_mem_singleton]
    exact readRow_renderRow address instruction comment hlength

/-- Data shows its bytes in rows. -/
theorem ShownAt.data (address : Int) (bytes : List UInt8) (instruction : String) :
    ShownAt ⟨bytes, [.data address bytes instruction]⟩ address := by
  have hrows : rows ⟨bytes, [.data address bytes instruction]⟩ =
      pieceRows address instruction (pieces 4 bytes) := by
    rw [rows, List.flatMap_singleton, ListingItem.rows_data]
  constructor
  · rw [hrows, cells_pieceRows, flatten_pieces]
  · rw [hrows]
    refine pieceRows_legible fun part hpart => ?_
    have hpiece := length_le_of_mem_pieces (by decide) hpart
    omega

end Code

/-! ## Data -/

/-- An item of data shows its bytes. -/
theorem datumCode_shownAt {width : DataWidth} {value : Expr → Except Fault Number}
    {address : Int} {operand : Expr} {code : Code}
    (h : datumCode width value address operand = .ok code) : code.ShownAt address := by
  unfold datumCode at h
  split at h
  case h_1 content shifted =>
    obtain rfl := pure_eq_ok.mp h
    exact .data _ _ _
  case h_2 =>
    simp only [bind_eq_ok, refuse_eq_ok, pure_eq_ok] at h
    obtain ⟨number, -, -, rfl⟩ := h
    refine .single ?_ rfl
    rw [littleEndian_length]
    cases width <;> decide

/-- A data directive shows its bytes, item by item. -/
theorem dataCode_shownAt {width : DataWidth} {value : Expr → Except Fault Number}
    {operands : List Expr} {address : Int} {code : Code}
    (h : dataCode width value address operands = .ok code) : code.ShownAt address := by
  induction operands generalizing address code with
  | nil =>
    cases h
    exact .of_nil rfl rfl address
  | cons operand rest ih =>
    simp only [dataCode, bind_eq_ok, pure_eq_ok] at h
    obtain ⟨first, hfirst, others, hothers, rfl⟩ := h
    exact (datumCode_shownAt hfirst).append (ih hothers)

/-- A fill directive shows its bytes. -/
theorem fillCode_shownAt {wide : Bool} {count : Nat} {number : Number} {address : Int}
    {code : Code} (h : fillCode wide count number address = .ok code) : code.ShownAt address := by
  simp only [fillCode, refuse_eq_ok, Except.ok.injEq] at h
  obtain ⟨-, -, rfl⟩ := h
  exact .data _ _ _

/-! ## Machine instructions -/

/-- A machine instruction as it is selected, before it is encoded. -/
structure Selection where
  mnemonic : String
  mode : AddressingMode
  /-- Whether an immediate operand takes two bytes. -/
  wide : Bool
  deriving DecidableEq, Repr

namespace Selection

/-- The length of a selected instruction. -/
def length (selection : Selection) : Nat :=
  selection.mode.size + if selection.wide then 1 else 0

/-- No instruction is longer than five bytes. -/
theorem length_le (selection : Selection) : selection.length ≤ 5 := by
  have hmode := selection.mode.size_le
  unfold length
  split <;> omega

/-- An entry of the opcode table for the selected mnemonic and mode. -/
def Chooses (selection : Selection) (entry : Opcode) : Prop :=
  entry ∈ Opcode.table ∧ entry.mnemonic = lowerAscii selection.mnemonic ∧
    entry.mode = selection.mode

end Selection

/-- A code that consists of selected machine instructions, one row for each of them. -/
inductive Code.Encodes : Int → List Selection → Code → Prop where
  | none {address : Int} {code : Code} (bytes : code.bytes = []) (rows : code.rows = []) :
      Encodes address [] code
  | single {address : Int} {selection : Selection} {code : Code} {entry : Opcode}
      {operand : List UInt8} {instruction : String} {comment : Option String}
      (chosen : selection.Chooses entry) (bytes : code.bytes = entry.code :: operand)
      (length : operand.length + 1 = selection.length)
      (rows : code.rows =
        [⟨address, code.bytes, renderRow address code.bytes instruction comment⟩]) :
      Encodes address [selection] code
  | append {address : Int} {early late : List Selection} {first second : Code}
      (before : Encodes address early first)
      (after : Encodes (address + first.bytes.length) late second) :
      Encodes address (early ++ late) (first ++ second)

/-- Machine instructions show their bytes. -/
theorem Code.Encodes.shownAt {address : Int} {selections : List Selection} {code : Code}
    (h : code.Encodes address selections) : code.ShownAt address := by
  induction h with
  | none bytes rows => exact .of_nil bytes rows _
  | single chosen bytes length rows =>
    refine .single ?_ rows
    rw [bytes, List.length_cons, length]
    exact Nat.le_trans (Selection.length_le _) (by decide)
  | append before after first second => exact first.append second

/-- The opcode of an instruction that a flow statement needs is that of an entry of the table. -/
theorem flowOpcode_eq_ok {mnemonic : String} {mode : AddressingMode} {opcode : UInt8}
    (h : flowOpcode mnemonic mode = .ok opcode) (wide : Bool) :
    ∃ entry, Selection.Chooses ⟨mnemonic, mode, wide⟩ entry ∧ entry.code = opcode := by
  unfold flowOpcode at h
  split at h
  case h_2 => cases h
  case h_1 entry hlookup =>
    cases h
    unfold Opcode.lookup at hlookup
    split at hlookup
    case h_2 => split at hlookup <;> cases hlookup
    case h_1 found hfound =>
      cases hlookup
      obtain ⟨htable, hmnemonic⟩ := List.mem_filter.mp (List.mem_of_find?_eq_some hfound)
      have hmode := List.find?_some hfound
      exact ⟨entry, ⟨htable, by simpa using hmnemonic, by simpa using hmode⟩, rfl⟩

/-- A short branch is one instruction. -/
theorem shortBranch_encodes {mnemonic : String} {address target : Int} {outOfReach : BranchFault}
    {comment : Option String} {code : Code}
    (h : shortBranch mnemonic address target outOfReach comment = .ok code) :
    code.Encodes address [⟨mnemonic, .relative, false⟩] := by
  simp only [shortBranch, demand_eq_ok, bind_eq_ok, pure_eq_ok] at h
  obtain ⟨-, opcode, hopcode, rfl⟩ := h
  obtain ⟨entry, hentry, rfl⟩ := flowOpcode_eq_ok hopcode false
  exact .single hentry rfl rfl rfl

/-- A long branch is one instruction. -/
theorem longBranch_encodes {mnemonic : String} {address target : Int} {outOfReach : BranchFault}
    {comment : Option String} {code : Code}
    (h : longBranch mnemonic address target outOfReach comment = .ok code) :
    code.Encodes address [⟨mnemonic, .relativeLong, false⟩] := by
  simp only [longBranch, demand_eq_ok, bind_eq_ok, pure_eq_ok] at h
  obtain ⟨-, opcode, hopcode, rfl⟩ := h
  obtain ⟨entry, hentry, rfl⟩ := flowOpcode_eq_ok hopcode false
  exact .single hentry rfl rfl rfl

/-- The comparison of a case is one instruction. -/
theorem caseComparison_encodes {register : Register} {address value : Int} {wide : Bool}
    {code : Code} (h : caseComparison register address value wide = .ok code) :
    code.Encodes address [⟨register.compare, .immediate, wide⟩] := by
  simp only [caseComparison, bind_eq_ok, pure_eq_ok] at h
  obtain ⟨opcode, hopcode, rfl⟩ := h
  obtain ⟨entry, hentry, rfl⟩ := flowOpcode_eq_ok hopcode wide
  refine .single hentry rfl ?_ rfl
  rw [littleEndian_length]
  cases wide <;> rfl

/-- The register that the case of a frame is compared with. -/
def FlowState.caseRegister? (flow : FlowState) (number : Nat) : Option Register := do
  let frame ← flow.frames[number]?
  match frame.kind with
  | .caseFrame switch _ =>
    match flow.frames[switch]?.map FlowFrame.kind with
    | some (.switchFrame register _) => some register
    | _ => none
  | _ => none

/-- The machine instructions that a flow statement with the given frame stands for. -/
def FlowStep.selections (flow : FlowState) (number : Nat) : FlowStep → List Selection
  | ifStart condition | loopUntil condition | whileStart condition =>
    [⟨condition.inverseBranch, .relative, false⟩]
  | whileEnd condition => [⟨condition.branch, .relative, false⟩]
  | elseStart _ | loopForever false => [⟨"BRA", .relative, false⟩]
  | loopForever true => [⟨"BRL", .relativeLong, false⟩]
  | caseStart _ follows wide =>
    (if follows then [⟨"BRA", .relative, false⟩] else []) ++
      ((flow.caseRegister? number).toList.map fun register =>
        ⟨register.compare, .immediate, wide⟩) ++ [⟨"BNE", .relative, false⟩]
  | ifEnd _ | loopStart | switchStart _ | switchEnd _ => []

namespace FlowStep

/-- A comment is no instruction. -/
theorem encodes_comment (address : Int) (text : String) :
    (Code.comment text).Encodes address [] :=
  .none rfl rfl

/-- A case is the branch out of the case before it, the comparison and the branch to the next. -/
theorem caseCode_encodes {flow : FlowState} {address : Int} {frame : FlowFrame} {switch : Nat}
    {nextAt : Option Int} {value : Expr} {follows wide : Bool} {code : Code}
    (h : caseCode flow address frame switch nextAt value follows wide = .ok code) :
    ∃ register endAt,
      flow.frames[switch]?.map FlowFrame.kind = some (.switchFrame register endAt) ∧
      code.Encodes address ((if follows then [⟨"BRA", .relative, false⟩] else []) ++
        [⟨register.compare, .immediate, wide⟩] ++ [⟨"BNE", .relative, false⟩]) := by
  obtain ⟨register, endAt, number, leave, compare, target, next, hswitch, -, hleave, hcompare, -,
    hnext, rfl⟩ := caseCode_eq_ok h
  refine ⟨register, endAt, hswitch, ?_⟩
  have hbefore : leave.Encodes address
      (if follows then [⟨"BRA", .relative, false⟩] else []) := by
    cases follows with
    | true =>
      obtain ⟨out, -, hleave⟩ := hleave
      exact shortBranch_encodes hleave
    | false =>
      obtain rfl : leave = Code.none := hleave
      exact .none rfl rfl
  have hlength : address + (leave ++ compare).bytes.length =
      address + leave.bytes.length + compare.bytes.length := by
    rw [Code.bytes_append, List.length_append]
    omega
  refine .append (.append hbefore (caseComparison_encodes hcompare)) ?_
  rw [hlength]
  exact shortBranch_encodes hnext

/-- A flow statement is the machine instructions it stands for. -/
theorem code_encodes {flow : FlowState} {address : Int} {number : Nat} {step : FlowStep}
    {code : Code} (h : step.code flow address number = .ok code) :
    code.Encodes address (step.selections flow number) := by
  unfold FlowStep.code at h
  split at h
  case h_2 => cases h
  case h_1 frame hframe =>
    unfold frameCode at h
    cases step with
    | ifStart condition =>
      dsimp only at h
      split at h
      case h_1 found elseAt endAt _ =>
        cases elseAt with
        | some elseAt => exact shortBranch_encodes h
        | none =>
          obtain ⟨target, -, h⟩ := bind_eq_ok.mp h
          exact shortBranch_encodes h
      case h_2 => cases h
    | elseStart condition | whileStart condition =>
      dsimp only at h
      split at h
      · obtain ⟨target, -, h⟩ := bind_eq_ok.mp h
        exact shortBranch_encodes h
      · cases h
    | caseStart value follows wide =>
      dsimp only at h
      split at h
      case h_2 => cases h
      case h_1 switch nextAt hkind =>
        obtain ⟨register, endAt, hswitch, hencodes⟩ := caseCode_encodes h
        have hregister : flow.caseRegister? number = some register := by
          simp [FlowState.caseRegister?, hframe, hkind, hswitch]
        rw [selections, hregister]
        exact hencodes
    | loopUntil condition => exact shortBranch_encodes h
    | whileEnd condition => exact shortBranch_encodes h
    | loopForever long =>
      cases long with
      | true => exact longBranch_encodes h
      | false => exact shortBranch_encodes h
    | ifEnd condition | switchStart register | switchEnd register =>
      obtain rfl := pure_eq_ok.mp h
      exact encodes_comment _ _
    | loopStart =>
      obtain rfl := pure_eq_ok.mp h
      exact encodes_comment _ _

end FlowStep

/-! ## All operations -/

/-- Every operation shows its bytes where it is placed, if an instruction was encoded for the place
at which it is emitted. -/
theorem emitOperation_shownAt {labels : List Resolution} {layout : Layout}
    {placed : PlacedOperation} {emitted : Emitted}
    (h : emitOperation labels layout placed = .ok emitted)
    (haddress : ∀ encoding, placed = .instruction encoding → encoding.address = layout.address) :
    emitted.code.ShownAt emitted.layout.address := by
  unfold emitOperation at h
  cases placed with
  | instruction encoding =>
    simp only [bind_eq_ok, pure_eq_ok] at h
    obtain ⟨bytes, hbytes, rfl⟩ := h
    rw [haddress encoding rfl]
    refine .single ?_ rfl
    exact (Encoding.bytes_length hbytes).trans_le (encoding.length_le.trans (by decide))
  | data width operands =>
    simp only [bind_eq_ok, pure_eq_ok] at h
    obtain ⟨code, hcode, rfl⟩ := h
    exact dataCode_shownAt hcode
  | fill wide count operand =>
    simp only [bind_eq_ok, pure_eq_ok] at h
    obtain ⟨number, -, code, hcode, rfl⟩ := h
    exact fillCode_shownAt hcode
  | includeBinary path bytes =>
    obtain rfl := pure_eq_ok.mp h
    exact .data _ _ _
  | flow step frame =>
    simp only [bind_eq_ok, pure_eq_ok] at h
    obtain ⟨code, hcode, rfl⟩ := h
    exact (FlowStep.code_encodes hcode).shownAt
  | changeSegment name =>
    simp only [bind_eq_ok, pure_eq_ok] at h
    obtain ⟨entered, -, found, -, rfl⟩ := h
    exact .of_nil rfl rfl _
  | setOrigin address =>
    simp only [bind_eq_ok, pure_eq_ok] at h
    obtain ⟨found, -, rfl⟩ := h
    exact .of_nil rfl rfl _
  | createSegment name start size fileOffset =>
    obtain rfl := pure_eq_ok.mp h
    exact .of_nil rfl rfl _
  | setWidth register wide =>
    obtain rfl := pure_eq_ok.mp h
    exact .of_nil rfl rfl _
  | declareLabel name =>
    obtain rfl := pure_eq_ok.mp h
    exact .of_nil rfl rfl _
  | includeSource path =>
    obtain rfl := pure_eq_ok.mp h
    exact .of_nil rfl rfl _
  | settled =>
    obtain rfl := pure_eq_ok.mp h
    exact .of_nil rfl rfl _

end Asm65816
