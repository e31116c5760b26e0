import Asm65816.Proofs.LabelLookup
import Asm65816.Proofs.PreparedOperands

/-!
# Where relative branches lead

A branch names its target by an offset in a bank, and its displacement is counted within the bank
that the branch stands in. An executed branch therefore comes to the offset of its label in the
bank of the branch, which is the label itself when both are in one bank. A label whose offset is
out of reach is refused; the bank of a label is not looked at.
-/

namespace Asm65816

/-- The bytes of the displacement of a branch, if the mode is one of a branch. -/
def AddressingMode.displacementSize? : AddressingMode → Option Nat
  | .relative => some 1
  | .relativeLong => some 2
  | _ => none

/-- Where an executed branch leads: its displacement is counted from its end, within the bank that
the branch stands in. -/
def branchTarget (address : Int) (bytes : List UInt8) : Int :=
  address / 65536 * 65536 +
    (address % 65536 + bytes.length + Encoding.signedField (bytes.drop 1)) % 65536

/-- A displacement that a field of `count` bytes can hold. -/
def Displaces (count : Nat) (displacement : Int) : Prop :=
  -fieldSpan count ≤ 2 * displacement ∧ 2 * displacement < fieldSpan count

instance (count : Nat) (displacement : Int) : Decidable (Displaces count displacement) :=
  inferInstanceAs (Decidable (_ ∧ _))

namespace Expr

/-! ## Operands that are bare names -/

variable {e : Expr} {name : Name}

/-- A bare name carries its value itself. -/
theorem valuePart_of_shape (h : e.shape = .name name) : e.valuePart = e := by
  cases e with
  | bound found value =>
    have hplain : value.isPlain = true := by
      have hvalue : value.shape = .name name := h
      simp [isPlain, isGroup, isImmediate, hvalue]
    rw [valuePart, if_pos hplain]
  | group items long => cases h
  | immediate operand => cases h
  | _ => rfl

/-- A bare name has the value of the name behind it. -/
theorem collapse_of_shape (h : e.shape = .name name) (scope : Scope) :
    e.collapse scope = (Expr.name name).collapse scope := by
  induction e using Expr.inductionOn with
  | name found =>
    cases h
    rfl
  | bound found value ih => exact ih h
  | _ => cases h

/-- A bare name leaves the name behind it open. -/
theorem mem_openNames_of_shape (h : e.shape = .name name) : name ∈ e.openNames := by
  induction e using Expr.inductionOn with
  | name found =>
    cases h
    exact List.mem_singleton_self _
  | bound found value ih => exact ih h
  | _ => cases h

/-- A bare name that may need no more than two bytes is a short one. -/
theorem short_of_fits (h : e.shape = .name name) (hfits : e.fits 2 = true) :
    name.long = false := by
  have hwidth : name.long = true → ∃ width, e.guessWidth = some width ∧ 3 ≤ width := by
    clear hfits
    intro hlong
    induction e using Expr.inductionOn with
    | name found =>
      cases h
      exact ⟨3, by simp [guessWidth, hlong], by omega⟩
    | bound found value ih =>
      obtain ⟨width, hwidth, hwide⟩ := ih h
      refine ⟨if found.long then max width 3 else width, by simp [guessWidth, hwidth], ?_⟩
      split <;> omega
    | _ => cases h
  cases hlong : name.long with
  | false => rfl
  | true =>
    obtain ⟨width, hguess, hwide⟩ := hwidth hlong
    simp only [fits, hguess, decide_eq_true_eq] at hfits
    omega

end Expr

namespace Encoding

/-! ## The bytes of a branch -/

variable {count : Nat}

/-- The displacements of a short branch. -/
theorem displaces_one {displacement : Int} :
    Displaces 1 displacement ↔ -128 ≤ displacement ∧ displacement ≤ 127 := by
  simp only [Displaces, fieldSpan]
  omega

/-- The displacements of a long branch. -/
theorem displaces_two {displacement : Int} :
    Displaces 2 displacement ↔ -32768 ≤ displacement ∧ displacement ≤ 32767 := by
  simp only [Displaces, fieldSpan]
  omega

/-- A branch holds the distance from its end to its target, or is refused when its field cannot. -/
theorem bytes_of_branch (encoding : Encoding) (value : Expr → Except Fault Number)
    (hmode : encoding.opcode.mode.displacementSize? = some count) :
    ∃ outOfReach : Int → BranchFault, encoding.bytes value =
      encoding.operandValue value 0 >>= fun target =>
        if Displaces count (encoding.displacement (count + 1) target.value) then
          .ok (encoding.opcode.code ::
            littleEndian (encoding.displacement (count + 1) target.value) count)
        else .error (.branch (outOfReach target.value)) := by
  cases hfound : encoding.opcode.mode with
  | relative =>
    obtain rfl : 1 = count := by simpa [hfound, AddressingMode.displacementSize?] using hmode
    refine ⟨fun target => .short (encoding.displacement 2 target), ?_⟩
    simp only [bytes, operandBytes, hfound, displaces_one]
    cases encoding.operandValue value 0 with
    | error cause => rfl
    | ok target =>
      simp only [ok_bind]
      split <;> rfl
  | relativeLong =>
    obtain rfl : 2 = count := by simpa [hfound, AddressingMode.displacementSize?] using hmode
    refine ⟨fun target => .long (encoding.displacement 3 target), ?_⟩
    simp only [bytes, operandBytes, hfound, displaces_two]
    cases encoding.operandValue value 0 with
    | error cause => rfl
    | ok target =>
      simp only [ok_bind]
      split <;> rfl
  | _ => simp [hfound, AddressingMode.displacementSize?] at hmode

/-- An executed branch comes to the target that its operand says, in its own bank. -/
theorem branchTarget_eq (opcode : UInt8) {address target : Int}
    (h : Displaces count (target - (address % 65536 + (count + 1 : Nat)))) :
    branchTarget address
        (opcode :: littleEndian (target - (address % 65536 + (count + 1 : Nat))) count) =
      address / 65536 * 65536 + target % 65536 := by
  have hback := signedField_littleEndian h.1 h.2
  rw [branchTarget, List.drop_one, List.tail_cons, hback, List.length_cons, littleEndian_length]
  congr 2
  omega

end Encoding

/-- An opcode that is selected accepts the operands. -/
theorem Opcode.accepts_of_select {mnemonic : String} {widths : RegisterWidths}
    {operands : List Expr} {opcode : Opcode}
    (h : Opcode.select mnemonic widths operands = .ok opcode) :
    opcode.accepts widths operands = true := by
  unfold Opcode.select at h
  split at h
  case h_1 found hfound =>
    cases h
    have haccepts := List.find?_some hfound
    exact haccepts
  case h_2 => cases h

/-- A branch by name is laid out where it is emitted, by the offset of its label in a bank. -/
theorem Reached.branch {environment : Environment} {actions : List Action}
    {final second : Layout} {encoding : Encoding} {location : Location} {operand : Expr}
    {name : Name} {count : Nat}
    (h : Reached environment actions final (.instruction encoding) location second)
    (hmode : encoding.opcode.mode.displacementSize? = some count)
    (hoperands : encoding.operands = [operand]) (hname : operand.shape = .name name) :
    encoding.address = second.address ∧ name.long = false := by
  obtain ⟨calls, operation, found, others, -, ⟨mnemonic, operands, -, -, hselect, haddress⟩,
    hcursor⟩ := h.stemsFrom
  refine ⟨haddress.trans (congrArg Cursor.address hcursor).symm, ?_⟩
  have haccepts := Opcode.accepts_of_select hselect
  have hplain : operand.immediateOperand? = none := by simp [Expr.immediateOperand?, hname]
  apply Expr.short_of_fits hname
  cases hfound : encoding.opcode.mode with
  | relative | relativeLong =>
    simpa only [Opcode.accepts, hoperands, hfound, hplain, Option.getD_none] using haccepts
  | _ => simp [hfound, AddressingMode.displacementSize?] at hmode

/-- The value of an operand that is a bare name, among the labels seen from a place. -/
theorem operandValue_of_name {labels : List Resolution} {second : Layout} {encoding : Encoding}
    {operand : Expr} {name : Name} (hoperands : encoding.operands = [operand])
    (hname : operand.shape = .name name) :
    encoding.operandValue (operandNumber labels second) 0 =
      operandNumber labels second (.name name) := by
  rw [Encoding.operandValue, hoperands]
  change operandNumber labels second operand.valuePart = _
  rw [Expr.valuePart_of_shape hname, operandNumber, Expr.collapse_of_shape hname, operandNumber]

/-- A name has a value exactly when it is found from the current segment and address. -/
theorem operandNumber_name_eq_ok {labels : List Resolution} {second : Layout} {name : Name}
    {number : Number} :
    operandNumber labels second (.name name) = .ok number ↔
      ∃ key target, second.current = some key ∧
        labelAddress? labels key name.ident second.address = some target ∧
        name.reading target = number := by
  rw [operandNumber, mapError_eq_ok, Expr.collapse]
  cases hcurrent : second.current with
  | none => simp [labelScope]
  | some key =>
    rw [labelScope_eq]
    cases hfound : labelAddress? labels key name.ident second.address with
    | none => simp [hfound]
    | some target => simp [hfound]

/-- A short reference reads the offset in a bank. -/
theorem Name.reading_value {name : Name} (h : name.long = false) (target : Int) :
    (name.reading target).value = target % 65536 := by
  rw [Name.reading, if_neg (by simp [h])]
  rfl

/-- An instruction is emitted where the second walk is, with its bytes. -/
theorem emitOperation_instruction {labels : List Resolution} {second : Layout}
    {encoding : Encoding} {emitted : Emitted}
    (h : emitOperation labels second (.instruction encoding) = .ok emitted) :
    emitted.layout = second ∧
      encoding.bytes (operandNumber labels second) = .ok emitted.code.bytes := by
  obtain ⟨bytes, hbytes, h⟩ := bind_eq_ok.mp h
  cases h
  exact ⟨rfl, hbytes⟩

/-- A branch by name of an assembly leads to the offset of the label that it means, in its own
bank. -/
theorem AssemblyRun.branchTarget_eq {search : AssetSearch} {main : SourceFile}
    (run : AssemblyRun search main) {deposit : Deposit} (hdeposit : deposit ∈ run.deposits)
    {encoding : Encoding} {operand : Expr} {name : Name} {count : Nat}
    (hoperation : deposit.operation = .instruction encoding)
    (hmode : encoding.opcode.mode.displacementSize? = some count)
    (hoperands : encoding.operands = [operand]) (hname : operand.shape = .name name) :
    ∃ key target, deposit.segment = some key ∧
      run.layout.selected? key name.ident deposit.address = some target ∧
      branchTarget deposit.address deposit.bytes =
        deposit.address / 65536 * 65536 + target % 65536 := by
  obtain ⟨location, second, emitted, hreached, hemits, hfound⟩ := run.reached hdeposit
  rw [hoperation] at hreached hemits hfound
  obtain ⟨hlayout, hbytes⟩ := emitOperation_instruction hemits
  obtain ⟨haddress, hshort⟩ := hreached.branch hmode hoperands hname
  obtain ⟨outOfReach, hbranch⟩ := encoding.bytes_of_branch (operandNumber run.labels second) hmode
  rw [hbranch, operandValue_of_name hoperands hname] at hbytes
  simp only [bind_eq_ok, demand_eq_ok, Except.ok.injEq] at hbytes
  obtain ⟨number, hnumber, hreach, hbytes⟩ := hbytes
  obtain ⟨key, target, hcurrent, htarget, rfl⟩ := operandNumber_name_eq_ok.mp hnumber
  rw [Name.reading_value hshort, Encoding.displacement, haddress] at hreach hbytes
  obtain rfl : deposit = ⟨second.current, second.address, .instruction encoding,
      emitted.code.bytes⟩ := by rw [hfound, Emitted.deposit, hlayout]
  refine ⟨key, target, hcurrent, ?_, ?_⟩
  · exact selected?_of_labelAddress? (layoutProgram_indexed run.laidOut).distinct run.resolved
      htarget
  · rw [← hbytes, Encoding.branchTarget_eq _ hreach, Int.emod_emod_of_dvd _ (Int.dvd_refl _)]

/-- A branch to a label whose offset no branch of its length leads to is refused. -/
theorem LayoutRun.far_branch {search : AssetSearch} {main : SourceFile}
    (run : LayoutRun search main) (listing : Bool) {before after : List Event} {size : Nat}
    {location : Location} {emission : Emission} {encoding : Encoding} {operand : Expr}
    {name : Name} {count : Nat}
    (hevents : stepEvents run.steps =
      before ++ .operation (.instruction encoding) size location :: after)
    (hbefore : emitEvents run.labels (Emission.initial run.layout) before = .ok emission)
    (hmode : encoding.opcode.mode.displacementSize? = some count)
    (hoperands : encoding.operands = [operand]) (hname : operand.shape = .name name)
    (hreserved : isReserved name.ident = false) :
    ∃ key target, emission.layout.current = some key ∧
      run.layout.selected? key name.ident emission.layout.address = some target ∧
      ((∀ bytes : List UInt8, bytes.length = count + 1 →
          branchTarget emission.layout.address bytes ≠
            emission.layout.address / 65536 * 65536 + target % 65536) →
        ∃ cause, assemble search main listing =
          .error ⟨.failed ⟨.branch cause, location⟩, run.program.sources⟩) := by
  obtain ⟨-, hreached⟩ := layoutProgram_reached run.laidOut hevents hbefore
  obtain ⟨haddress, hshort⟩ := hreached.branch hmode hoperands hname
  have hevaluated : operand ∈ (PlacedOperation.instruction encoding).evaluated := by
    rw [PlacedOperation.evaluated, hoperands, List.map_singleton, Expr.valuePart_of_shape hname]
    exact List.mem_singleton_self _
  obtain ⟨key, target, hcurrent, hselected, hfound, -⟩ :=
    hreached.label_found (layoutProgram_indexed run.laidOut).distinct run.resolved hevaluated
      (Expr.mem_openNames_of_shape hname) hreserved
  refine ⟨key, target, hcurrent, hselected, fun hfar => ?_⟩
  have hnumber := operandNumber_name_eq_ok.mpr ⟨key, target, hcurrent, hfound, rfl⟩
  -- A displacement that fits would lead to the offset of the label.
  have hreach : ¬Displaces count (encoding.displacement (count + 1) (target % 65536)) := by
    intro hreach
    rw [Encoding.displacement, haddress] at hreach
    have hleads := Encoding.branchTarget_eq encoding.opcode.code hreach
    rw [Int.emod_emod_of_dvd _ (Int.dvd_refl _)] at hleads
    exact hfar _ (by rw [List.length_cons, littleEndian_length]) hleads
  obtain ⟨outOfReach, hbranch⟩ :=
    encoding.bytes_of_branch (operandNumber run.labels emission.layout) hmode
  rw [operandValue_of_name hoperands hname, hnumber, ok_bind, Name.reading_value hshort,
    if_neg hreach] at hbranch
  refine ⟨outOfReach (target % 65536), run.assemble_eq_error listing hevents hbefore ?_⟩
  exact bind_eq_error.mpr (.inl (bind_eq_error.mpr (.inl hbranch)))

/-- A relative branch reaches the offset of the label it names. In an assembly that succeeds, every
branch whose operand is a bare name leads, when it is executed, to the address in its own bank
whose offset is that of the address which the name means; this is the label itself exactly when
both are in one bank. A branch to a label whose offset no branch of its length leads to is refused
for its range. -/
theorem branch_reaches_offset (search : AssetSearch) (main : SourceFile) (listing : Bool) :
    (∀ assembly, assemble search main listing = .ok assembly →
      ∃ run : AssemblyRun search main, assembly.segments = run.emission.segmentCode ∧
        ∀ deposit ∈ run.deposits, ∀ encoding operand name count,
          deposit.operation = .instruction encoding →
          encoding.opcode.mode.displacementSize? = some count →
          encoding.operands = [operand] → operand.shape = .name name →
            ∃ key target, deposit.segment = some key ∧
              run.layout.selected? key name.ident deposit.address = some target ∧
              branchTarget deposit.address deposit.bytes =
                deposit.address / 65536 * 65536 + target % 65536 ∧
              (branchTarget deposit.address deposit.bytes = target ↔
                target / 65536 = deposit.address / 65536)) ∧
    ∀ (run : LayoutRun search main) before encoding size location after emission operand name count,
      stepEvents run.steps = before ++ .operation (.instruction encoding) size location :: after →
      emitEvents run.labels (Emission.initial run.layout) before = .ok emission →
      encoding.opcode.mode.displacementSize? = some count →
      encoding.operands = [operand] → operand.shape = .name name →
      isReserved name.ident = false →
        ∃ key target, emission.layout.current = some key ∧
          run.layout.selected? key name.ident emission.layout.address = some target ∧
          ((∀ bytes : List UInt8, bytes.length = count + 1 →
              branchTarget emission.layout.address bytes ≠
                emission.layout.address / 65536 * 65536 + target % 65536) →
            ∃ cause, assemble search main listing =
              .error ⟨.failed ⟨.branch cause, location⟩, run.program.sources⟩) := by
  constructor
  · intro assembly h
    obtain ⟨run, hsegments⟩ := assemble_run h
    refine ⟨run, hsegments, ?_⟩
    intro deposit hdeposit encoding operand name count hoperation hmode hoperands hname
    obtain ⟨key, target, hkey, hselected, hleads⟩ :=
      run.branchTarget_eq hdeposit hoperation hmode hoperands hname
    refine ⟨key, target, hkey, hselected, hleads, ?_⟩
    rw [hleads]
    omega
  · intro run before encoding size location after emission operand name count hevents hbefore
      hmode hoperands hname hreserved
    exact run.far_branch listing hevents hbefore hmode hoperands hname hreserved

/-- A branch within bank one, to a label behind it. -/
theorem branch_reaches_offset_forward :
    ∃ main : SourceFile,
      main.text = " .segment \"c\",0x18000,9,0\n .c\n bra t\nt: nop\n" ∧
      ∃ assembly, assemble ⟨.ofTable [], []⟩ main false = .ok assembly ∧
        ∃ run : AssemblyRun ⟨.ofTable [], []⟩ main, ∀ deposit ∈ run.deposits,
          ∀ encoding operand name count, deposit.operation = .instruction encoding →
            encoding.opcode.mode.displacementSize? = some count →
            encoding.operands = [operand] → operand.shape = .name name →
              ∃ key target, deposit.segment = some key ∧
                run.layout.selected? key name.ident deposit.address = some target ∧
                branchTarget deposit.address deposit.bytes =
                  deposit.address / 65536 * 65536 + target % 65536 := by
  refine ⟨⟨"forward.s", _⟩, rfl, (exists_of_isOk ?_).imp fun assembly h => ⟨h, ?_⟩⟩
  · decide +kernel
  · obtain ⟨run, -, hbranches⟩ := (branch_reaches_offset _ _ _).1 assembly h
    refine ⟨run, ?_⟩
    intro deposit hdeposit encoding operand name count hoperation hmode hoperands hname
    obtain ⟨key, target, hkey, hselected, hleads, -⟩ :=
      hbranches deposit hdeposit encoding operand name count hoperation hmode hoperands hname
    exact ⟨key, target, hkey, hselected, hleads⟩

/-- A branch to a label 254 bytes behind its end is refused. -/
example : (match assemble ⟨.ofTable [], []⟩
      ⟨"far.s", " .segment \"c\",0x8000,999,0\n .c\n bra t\n .org 0x8100\nt: nop\n"⟩ false with
    | .error ⟨.failed ⟨.branch cause, _⟩, _⟩ => some cause
    | _ => none) = some (.short 254) := by
  decide +kernel

/-- Whether an operation is a branch by name that leads elsewhere than to the label it means. -/
def Deposit.strays (layout : Layout) (deposit : Deposit) : Bool :=
  match deposit.operation, deposit.segment with
  | .instruction ⟨_, [.name name], opcode, _, _⟩, some key =>
    match opcode.mode.displacementSize?, layout.selected? key name.ident deposit.address with
    | some _, some target => branchTarget deposit.address deposit.bytes != target
    | _, _ => false
  | _, _ => false

/-- A branch that strays is one by name, and its target is not the label. -/
theorem Deposit.exists_of_strays {layout : Layout} {deposit : Deposit}
    (h : deposit.strays layout = true) :
    ∃ encoding operand name count key target, deposit.operation = .instruction encoding ∧
      encoding.opcode.mode.displacementSize? = some count ∧ encoding.operands = [operand] ∧
      operand.shape = .name name ∧ deposit.segment = some key ∧
      layout.selected? key name.ident deposit.address = some target ∧
      branchTarget deposit.address deposit.bytes ≠ target := by
  unfold Deposit.strays at h
  split at h
  case h_1 mnemonic name opcode wide address key hoperation hsegment =>
    split at h
    case h_1 count target hcount htarget =>
      exact ⟨_, _, name, count, key, target, hoperation, hcount, rfl, rfl, hsegment, htarget,
        by simpa using h⟩
    case h_2 => cases h
  case h_2 => cases h

/-- A branch to a global label of another bank assembles, and leads to itself. -/
theorem branch_strays_across_banks :
    ∃ main : SourceFile,
      main.text = " .segment \"c\",0x8000,9,0\n .segment \"d\",0x18000,9,9\n .d\n .global t\n" ++
        "t: nop\n .c\n bra t\n" ∧
      ∃ run : AssemblyRun ⟨.ofTable [], []⟩ main,
        (∃ assembly, assemble ⟨.ofTable [], []⟩ main false = .ok assembly) ∧
        ∃ deposit ∈ run.deposits, ∃ encoding operand name count key target,
          deposit.operation = .instruction encoding ∧
          encoding.opcode.mode.displacementSize? = some count ∧ encoding.operands = [operand] ∧
          operand.shape = .name name ∧ deposit.segment = some key ∧
          run.layout.selected? key name.ident deposit.address = some target ∧
          branchTarget deposit.address deposit.bytes ≠ target := by
  refine ⟨⟨"banks.s", _⟩, rfl, (AssemblyRun.exists_of_any
    (fun run => run.deposits.any (Deposit.strays run.layout)) ?_).imp
      fun run h => ⟨run.assembles false, ?_⟩⟩
  · decide +kernel
  · obtain ⟨deposit, hdeposit, hstrays⟩ := List.any_eq_true.mp h
    exact ⟨deposit, hdeposit, Deposit.exists_of_strays hstrays⟩

end Asm65816
