import Mathlib.Data.List.Forall2
import Asm65816.Proofs.Reached

/-!
# Operations and what they are laid out as

An operation is laid out with its operands prepared: the arguments of the innermost macro call are
bound in them, and then the current address and the equates. Besides its operands a laid-out
operation holds what was chosen for it where it stands, such as the opcode of an instruction.
-/

namespace Asm65816

/-- An operand and what is made of it at an address inside macro calls. -/
def Prepared (environment : Environment) (calls : List MacroCall) (address : Int)
    (operand bound : Expr) : Prop :=
  ∃ argued, bindArguments calls operand = .ok argued ∧
    bindEquates environment.equates address none argued = .ok bound

/-- What a laid-out operation takes over from an operation that is laid out at the place of a
layout. -/
def PlacedOperation.StemsFrom (environment : Environment) (calls : List MacroCall)
    (layout : Layout) (operation : Operation) : PlacedOperation → Prop
  | .instruction encoding => ∃ mnemonic operands,
      operation = .instruction mnemonic operands ∧
      (∀ bound ∈ encoding.operands, ∃ operand ∈ operands,
        Prepared environment calls layout.address operand bound) ∧
      Opcode.select mnemonic layout.widths encoding.operands = .ok encoding.opcode ∧
      encoding.address = layout.address
  | .data width operands => ∃ written, operation = .data width written ∧
      ∀ bound ∈ operands, ∃ operand ∈ written,
        Prepared environment calls layout.address operand bound
  | .fill wide _ value => ∃ count operand, operation = .fill wide count operand ∧
      Prepared environment calls layout.address operand value
  | .flow (.caseStart value _ wide) _ => ∃ operand number,
      operation = .flow (.caseStart operand) ∧
      Prepared environment calls layout.address operand value ∧
      value.closedValue = .ok number ∧ number.width ≤ if wide then 2 else 1
  | _ => True

/-- Lists that are related item by item: what stands in the second comes from the first. -/
theorem exists_of_forall₂ {α β : Type} {related : α → β → Prop} {before : List α} {after : List β}
    {found : β} (h : List.Forall₂ related before after) (hfound : found ∈ after) :
    ∃ item ∈ before, related item found := by
  induction h with
  | nil => cases hfound
  | cons hfirst hrest ih =>
    rcases List.mem_cons.mp hfound with rfl | hfound
    · exact ⟨_, List.mem_cons_self, hfirst⟩
    · obtain ⟨item, hitem, hrelated⟩ := ih hfound
      exact ⟨item, List.mem_cons_of_mem _ hitem, hrelated⟩

section Placing

variable {environment : Environment} {calls : List MacroCall} {location : Location}

/-- A text is prepared as it is. -/
theorem Prepared.text (address : Int) (content : String) (petscii : Bool) :
    Prepared environment calls address (.text content petscii) (.text content petscii) := by
  refine ⟨.text content petscii, ?_, rfl⟩
  cases calls with
  | nil => rfl
  | cons call outer => rfl

/-- An operand is prepared at the current address. -/
theorem resolveOperand_prepared {layout next : Layout} {operand bound : Expr}
    (h : resolveOperand environment calls location layout operand = .ok (bound, next)) :
    Prepared environment calls layout.address operand bound := by
  simp only [resolveOperand, bind_eq_ok, pure_eq_ok, Prod.mk.injEq] at h
  obtain ⟨argued, hargued, _, hequated, _, -, rfl, -⟩ := h
  exact ⟨argued, hargued, hequated⟩

/-- Operands are prepared one by one at the current address. -/
theorem resolveOperands_prepared {operands bound : List Expr} {layout next : Layout}
    (h : resolveOperands environment calls location operands layout = .ok (bound, next)) :
    List.Forall₂ (Prepared environment calls layout.address) operands bound := by
  induction operands generalizing layout bound with
  | nil =>
    cases h
    exact .nil
  | cons operand rest ih =>
    simp only [resolveOperands, bind_eq_ok, pure_eq_ok] at h
    obtain ⟨⟨first, mid⟩, hfirst, ⟨others, reached⟩, hothers, hresult⟩ := h
    cases hresult
    have haddress : mid.address = layout.address :=
      congrArg Cursor.address (resolveOperand_alike hfirst).1.cursor
    exact .cons (resolveOperand_prepared hfirst) (haddress ▸ ih hothers)

/-- The items of data are prepared at the current address. -/
theorem placeData_prepared {width : DataWidth} {operands bound : List Expr} {size : Nat}
    {layout next : Layout}
    (h : placeData environment calls location width operands layout = .ok (bound, size, next)) :
    ∀ found ∈ bound, ∃ operand ∈ operands,
      Prepared environment calls layout.address operand found := by
  induction operands generalizing layout bound size with
  | nil =>
    cases h
    simp
  | cons operand rest ih =>
    simp only [placeData, bind_eq_ok, pure_eq_ok] at h
    obtain ⟨⟨first, count, mid⟩, hfirst, ⟨others, more, reached⟩, hothers, hresult⟩ := h
    cases hresult
    have hdatum : Prepared environment calls layout.address operand first ∧
        mid.address = layout.address := by
      cases operand with
      | text content petscii =>
        obtain ⟨-, hfirst⟩ := demand_eq_ok.mp hfirst
        cases hfirst
        exact ⟨.text _ _ _, rfl⟩
      | _ =>
        simp only [placeDatum, bind_eq_ok, pure_eq_ok] at hfirst
        obtain ⟨⟨resolved, found⟩, hresolved, hfirst⟩ := hfirst
        cases hfirst
        exact ⟨resolveOperand_prepared hresolved,
          congrArg Cursor.address (resolveOperand_alike hresolved).1.cursor⟩
    intro found hfound
    rcases List.mem_cons.mp hfound with rfl | hrest
    · exact ⟨operand, List.mem_cons_self, hdatum.1⟩
    · obtain ⟨source, hsource, hprepared⟩ := ih hothers found hrest
      exact ⟨source, List.mem_cons_of_mem _ hsource, hdatum.2 ▸ hprepared⟩

/-- An instruction is laid out with its operands prepared and the opcode that is selected for them
and the register widths in effect, and takes the bytes that this opcode asks for. -/
theorem placeOperation_instruction {layout next : Layout} {mnemonic : String}
    {operands : List Expr} {placed : PlacedOperation} {size : Nat}
    (h : placeOperation environment calls location layout (.instruction mnemonic operands) =
      .ok (placed, size, next)) :
    ∃ encoding, placed = .instruction encoding ∧ encoding.mnemonic = mnemonic ∧
      List.Forall₂ (Prepared environment calls layout.address) operands encoding.operands ∧
      Opcode.select mnemonic layout.widths encoding.operands = .ok encoding.opcode ∧
      encoding.wide = encoding.opcode.isWide layout.widths ∧
      encoding.address = layout.address ∧
      size = encoding.opcode.encodedSize layout.widths := by
  simp only [placeOperation, refuse_eq_ok, bind_eq_ok, pure_eq_ok, Prod.mk.injEq] at h
  obtain ⟨-, ⟨bound, resolved⟩, hresolved, opcode, hopcode, rfl, rfl, rfl⟩ := h
  have hcursor := (resolveOperands_alike hresolved).cursor
  have hwidths : resolved.widths = layout.widths := congrArg Cursor.widths hcursor
  have haddress : resolved.address = layout.address := congrArg Cursor.address hcursor
  exact ⟨_, rfl, rfl, resolveOperands_prepared hresolved, hwidths ▸ hopcode, hwidths ▸ rfl,
    haddress, hwidths ▸ rfl⟩

/-- A laid-out operation takes over from its operation what it should. -/
theorem placeOperation_stemsFrom {layout next : Layout} {operation : Operation}
    {placed : PlacedOperation} {size : Nat}
    (h : placeOperation environment calls location layout operation = .ok (placed, size, next)) :
    placed.StemsFrom environment calls layout operation := by
  have hplaced := h
  unfold placeOperation at h
  cases operation with
  | createSegment name start size fileOffset =>
    obtain ⟨added, -, h⟩ := bind_eq_ok.mp h
    cases h
    trivial
  | changeSegment name =>
    obtain ⟨entered, -, h⟩ := bind_eq_ok.mp h
    cases h
    trivial
  | setOrigin operand =>
    obtain ⟨found, -, h⟩ := bind_eq_ok.mp h
    obtain ⟨origin, -, h⟩ := bind_eq_ok.mp h
    cases h
    trivial
  | setWidth register wide =>
    cases h
    trivial
  | declareLabel name =>
    obtain ⟨declared, -, h⟩ := bind_eq_ok.mp h
    cases h
    trivial
  | instruction mnemonic operands =>
    obtain ⟨encoding, rfl, -, hprepared, hselect, -, haddress, -⟩ :=
      placeOperation_instruction hplaced
    exact ⟨mnemonic, operands, rfl, fun _ => exists_of_forall₂ hprepared, hselect, haddress⟩
  | data width operands =>
    obtain ⟨⟨bound, count, resolved⟩, hresolved, h⟩ := bind_eq_ok.mp h
    cases h
    exact ⟨operands, rfl, placeData_prepared hresolved⟩
  | fill wide count value =>
    obtain ⟨⟨boundCount, mid⟩, hcount, h⟩ := bind_eq_ok.mp h
    obtain ⟨⟨boundValue, resolved⟩, hvalue, h⟩ := bind_eq_ok.mp h
    obtain ⟨number, -, h⟩ := bind_eq_ok.mp h
    have haddress : mid.address = layout.address :=
      congrArg Cursor.address (resolveOperand_alike hcount).1.cursor
    cases h
    exact ⟨count, value, rfl, haddress ▸ resolveOperand_prepared hvalue⟩
  | includeBinary path =>
    obtain ⟨found, -, h⟩ := bind_eq_ok.mp h
    obtain ⟨asset, -, h⟩ := bind_eq_ok.mp h
    cases h
    trivial
  | includeSource path =>
    cases h
    trivial
  | setGlobal name =>
    obtain ⟨published, -, h⟩ := bind_eq_ok.mp h
    cases h
    trivial
  | setGlobalAll =>
    obtain ⟨published, -, h⟩ := bind_eq_ok.mp h
    cases h
    trivial
  | flow statement =>
    obtain ⟨⟨step, number, count, moved⟩, hmoved, h⟩ := bind_eq_ok.mp h
    cases h
    cases step with
    | caseStart value follows wide =>
      obtain ⟨operand, found, register, rfl, hvalue, -, -, hwidth⟩ := placeFlow_caseStart hmoved
      obtain ⟨argued, hargued, hequated, hclosed⟩ := caseValue_eq_ok hvalue
      exact ⟨operand, found, rfl, ⟨argued, hargued, hequated⟩, hclosed, hwidth⟩
    | _ => trivial

end Placing

/-- An operation that the second walk comes to was laid out at the same place. -/
theorem Reached.stemsFrom {environment : Environment} {actions : List Action}
    {final second : Layout} {placed : PlacedOperation} {location : Location}
    (h : Reached environment actions final placed location second) :
    ∃ calls operation found others,
      WalksTo environment Layout.empty (bodyTasks [] actions) found
        (.action calls (.operation operation location) :: others) ∧
      placed.StemsFrom environment calls found operation ∧ second.cursor = found.cursor := by
  cases h with
  | @intro calls operation found mid next others tail walked laidOut occupied rest follows =>
    exact ⟨calls, operation, found, others, walked, placeOperation_stemsFrom laidOut,
      follows.cursor⟩

end Asm65816
