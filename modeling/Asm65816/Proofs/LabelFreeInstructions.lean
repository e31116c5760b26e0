import Asm65816.Proofs.ModeChoice
import Asm65816.Proofs.WidthEstimates

/-!
# Instructions without labels

An operand without labels has the same value in both walks. Its estimate is never too small, so that
an instruction with such operands is never too large for the mode that was selected for it, and is
encoded by its opcode and the low bytes of the value that its operand carries.
-/

namespace Asm65816

namespace Expr

/-! ## What an operand carries -/

/-- The expression that an operand carries: the one behind a `#`, the first item of a group, or the
operand itself. -/
def carried (e : Expr) : Expr :=
  match e.shape with
  | .immediate inner => inner
  | .group (first :: _) _ => first
  | _ => e

/-- An expression without names to look up, whose literals state at least one byte. -/
structure LabelFree (e : Expr) : Prop where
  closed : e.openNames = []
  literals : ∀ n ∈ e.literals, 1 ≤ n.width

/-- Whether an instruction takes what an operand carries for its value. -/
def CarriesValue (e : Expr) : Prop :=
  e.valuePart = e.carried ∨ (e.valuePart = e.carried.valuePart ∧ e.carried.HasEstimate)

variable {e : Expr}

/-- A plain operand carries itself. -/
theorem carried_of_isPlain (h : e.isPlain = true) : e.carried = e := by
  obtain ⟨hsingle, hunsigned⟩ := isPlain_iff.mp h
  unfold carried
  split
  case h_1 hshape => simp [isImmediate, hshape] at hunsigned
  case h_2 hshape => simp [isGroup, hshape] at hsingle
  case h_3 => rfl

/-- An instruction takes the value of a plain operand. -/
theorem carriesValue_of_isPlain (h : e.isPlain = true) : e.CarriesValue := by
  have hpart : e.valuePart = e := by
    cases e with
    | immediate operand => cases h
    | group items long => cases h
    | bound name value => exact if_pos h
    | _ => rfl
  exact .inl (hpart.trans (carried_of_isPlain h).symm)

/-- Behind the sign of an immediate operand stands an expression. -/
theorem exists_immediateOperand? (h : e.isImmediate = true) :
    ∃ inner, e.immediateOperand? = some inner := by
  unfold isImmediate at h
  unfold immediateOperand?
  cases hshape : e.shape with
  | immediate inner => exact ⟨inner, rfl⟩
  | _ => simp [hshape] at h

/-- An immediate operand carries what stands behind the sign. -/
theorem carried_of_immediateOperand? {inner : Expr} (h : e.immediateOperand? = some inner) :
    e.carried = inner := by
  unfold immediateOperand? at h
  split at h
  case h_1 operand hshape => rw [carried, hshape, Option.some.inj h]
  case h_2 => cases h

/-- What stands behind the sign of an operand with an estimate has one. -/
theorem HasEstimate.immediateOperand {inner : Expr} (h : e.HasEstimate)
    (hinner : e.immediateOperand? = some inner) : inner.HasEstimate := by
  induction e using Expr.inductionOn with
  | immediate operand ih =>
    cases hinner
    exact h
  | bound name value ih =>
    obtain ⟨width, hwidth⟩ := h
    obtain ⟨found, hfound, -⟩ := Option.map_eq_some_iff.mp hwidth
    exact ih ⟨found, hfound⟩ hinner
  | _ => cases hinner

/-- An instruction takes the value behind the sign of an immediate operand. -/
theorem carriesValue_of_isImmediate (h : e.isImmediate = true) (hestimate : e.HasEstimate) :
    e.CarriesValue := by
  obtain ⟨inner, hinner⟩ := exists_immediateOperand? h
  rw [CarriesValue, carried_of_immediateOperand? hinner]
  exact .inr ⟨valuePart_of_immediateOperand? hinner, hestimate.immediateOperand hinner⟩

/-- A group carries its first item. -/
theorem carried_of_groupItems? {first : Expr} {others : List Expr} {long : Bool}
    (h : e.groupItems? = some (first :: others, long)) : e.carried = first := by
  unfold groupItems? at h
  split at h
  case h_1 items isLong hshape =>
    cases h
    rw [carried, hshape]
  case h_2 => cases h

/-- An instruction takes the value of the base in brackets. -/
theorem IsBracketed.carriesValue (h : e.IsBracketed) : e.CarriesValue := by
  obtain ⟨base, others, long, hitems, -⟩ := h
  exact .inl ((valuePart_of_groupItems? hitems).trans (carried_of_groupItems? hitems).symm)

/-- The value part of an operand with an estimate has the value of the operand. -/
theorem collapse_valuePart (h : e.HasEstimate) (scope : Scope) :
    e.valuePart.collapse scope = e.collapse scope := by
  induction e using Expr.inductionOn with
  | immediate operand ih => exact ih h
  | group items long ih =>
    obtain ⟨width, h⟩ := h
    match items with
    | [] => cases h
    | [single] => rfl
    | first :: second :: rest => cases h
  | bound name value ih =>
    obtain ⟨width, h⟩ := h
    obtain ⟨found, hfound, -⟩ := Option.map_eq_some_iff.mp h
    rw [valuePart]
    split
    · rfl
    · exact ih ⟨found, hfound⟩
  | _ => rfl

/-- An expression without names to look up has one value in all scopes. -/
theorem LabelFree.collapse (h : e.LabelFree) (scope : Scope) :
    e.collapse scope = e.closedValue :=
  collapse_congr fun _ hname => absurd hname (h.closed ▸ List.not_mem_nil)

/-- The value that an instruction takes is the one that the operand carries. -/
theorem CarriesValue.collapse (h : e.CarriesValue) (hfree : e.carried.LabelFree) (scope : Scope) :
    e.valuePart.collapse scope = e.carried.closedValue := by
  rw [← hfree.collapse scope]
  obtain h | ⟨h, hestimate⟩ := h
  · rw [h]
  · rw [h, collapse_valuePart hestimate]

/-- No labels are in the value part when none are in what the operand carries. -/
theorem CarriesValue.labelFree (h : e.CarriesValue) (hfree : e.carried.LabelFree) :
    e.valuePart.LabelFree := by
  obtain h | ⟨h, -⟩ := h
  · exact h ▸ hfree
  · rw [h]
    refine ⟨List.eq_nil_iff_forall_not_mem.mpr fun name hname => ?_, fun n hn => ?_⟩
    · exact absurd (openNames_valuePart hname) (hfree.closed ▸ List.not_mem_nil)
    · exact hfree.literals n (literals_valuePart hn)

/-! ## Widths without labels -/

/-- A value that needs no labels is within the estimate of its expression. -/
theorem width_le_of_closedValue {n : Number} (h : e.closedValue = .ok n) :
    ∃ guess, e.guessWidth = some guess ∧ n.width ≤ guess := by
  induction e using Expr.inductionOn generalizing n with
  | number value =>
    cases h
    exact ⟨value.width, rfl, Nat.le_refl _⟩
  | name name => cases h
  | bound name value ih =>
    obtain ⟨guess, hguess, hle⟩ := ih h
    refine ⟨if name.long then max guess 3 else guess, by simp [guessWidth, hguess], ?_⟩
    split <;> omega
  | unary op operand ih =>
    rw [closedValue, collapse_unary, bind_eq_ok] at h
    obtain ⟨value, hvalue, happly⟩ := h
    obtain ⟨guess, hguess, hle⟩ := ih hvalue
    rw [UnaryOp.apply_width happly]
    cases op with
    | negate | plus | complement => exact ⟨guess, hguess, hle⟩
    | lowByte | highByte | logicalNot => exact ⟨1, rfl, Nat.le_refl 1⟩
  | binary op l r ihl ihr => exact ⟨n.width, by rw [guessWidth, h], Nat.le_refl _⟩
  | group items long ih =>
    obtain ⟨single, rfl, hsingle⟩ := collapse_group_eq_ok.mp h
    exact ih single List.mem_cons_self hsingle
  | text content petscii => cases h
  | immediate operand ih => exact ih h

/-- The value of an expression without labels states between one byte and as many as it fits. -/
theorem LabelFree.width_bounds {limit : Nat} {n : Number} (h : e.LabelFree)
    (hfits : e.fits limit = true) (hvalue : e.closedValue = .ok n) :
    1 ≤ n.width ∧ n.width ≤ limit := by
  refine ⟨one_le_width_of_literals (fun _ _ h => by cases h) h.literals hvalue, ?_⟩
  obtain ⟨guess, hguess, hle⟩ := fits_iff.mp hfits
  obtain ⟨found, hfound, hwidth⟩ := width_le_of_closedValue hvalue
  cases hguess.symm.trans hfound
  omega

end Expr

/-! ## The operands that carry values -/

/-- The operands whose values instructions of a kind take. The others name registers. -/
def OperandKind.valueOperands (kind : OperandKind) (operands : List Expr) : List Expr :=
  match kind with
  | bare | accumulator => []
  | move => operands
  | immediate | branch | direct | indexed | indirect | indirectIndexed => operands.take 1

/-- An instruction that does not branch takes the values that its operands carry. -/
theorem OperandKind.Suits.carriesValue {kind : OperandKind} {operands : List Expr}
    (h : kind.Suits operands) (hkind : kind ≠ .branch) :
    ∀ operand ∈ kind.valueOperands operands, operand.CarriesValue := by
  cases h with
  | bare | omitted | accumulator => simp [valueOperands]
  | immediate sign estimate =>
    simpa [valueOperands] using Expr.carriesValue_of_isImmediate sign estimate
  | move sourceSign sourceEstimate destinationSign destinationEstimate =>
    simpa [valueOperands] using ⟨Expr.carriesValue_of_isImmediate sourceSign sourceEstimate,
      Expr.carriesValue_of_isImmediate destinationSign destinationEstimate⟩
  | branch operand => exact absurd rfl hkind
  | direct plain => simpa [valueOperands] using Expr.carriesValue_of_isPlain plain
  | @indexed base index single estimate register =>
    -- The base is not a group, and a sign in front of it changes nothing.
    have hbase : base.CarriesValue := by
      cases hsign : base.isImmediate with
      | true => exact Expr.carriesValue_of_isImmediate hsign estimate
      | false => exact Expr.carriesValue_of_isPlain (Expr.isPlain_iff.mpr ⟨single, hsign⟩)
    simpa [valueOperands] using hbase
  | indirect brackets => simpa [valueOperands] using brackets.carriesValue
  | indirectIndexed brackets register => simpa [valueOperands] using brackets.carriesValue

namespace Encoding

/-- The operands whose values an instruction takes. -/
def valueOperands (encoding : Encoding) : List Expr :=
  encoding.opcode.mode.operandKind.valueOperands encoding.operands

/-- An instruction with the opcode that is selected for its operands and the register widths. -/
structure Selected (encoding : Encoding) (widths : RegisterWidths) : Prop where
  opcode : Opcode.select encoding.mnemonic widths encoding.operands = .ok encoding.opcode
  wide : encoding.wide = encoding.opcode.isWide widths

/-- The bytes behind the opcode of an instruction of `size` bytes that does not branch, from the
values that its operands carry. -/
def carriedBytes (encoding : Encoding) (size : Nat) : Except EvalError (List UInt8) :=
  match encoding.opcode.mode, encoding.operands with
  | .implied, _ | .accumulator, _ | .stack, _ => .ok []
  | .interrupt, _ => .ok [0]
  | .blockMove, [source, destination] => do
    let source ← source.carried.closedValue
    let destination ← destination.carried.closedValue
    return littleEndian destination.value 1 ++ littleEndian source.value 1
  | _, operand :: _ => do return littleEndian (← operand.carried.closedValue).value (size - 1)
  | _, [] => .ok []

variable {encoding : Encoding} {widths : RegisterWidths}

/-- A field holds the value of an operand whose value the instruction takes. -/
theorem exists_valueOperand {field : OperandField} (h : field ∈ encoding.fields) :
    encoding.opcode.mode.operandKind ≠ .branch ∧
      ∃ operand ∈ encoding.valueOperands, field.operand = operand.valuePart := by
  have hfirst {size offset : Nat} (h : field ∈ encoding.field 0 size offset) :
      ∃ operand ∈ encoding.operands.take 1, field.operand = operand.valuePart := by
    obtain ⟨operand, hoperand, rfl⟩ := mem_field h
    exact ⟨operand,
      List.mem_of_getElem? ((List.getElem?_take_of_lt Nat.zero_lt_one).trans hoperand), rfl⟩
  have hany {index size offset : Nat} (h : field ∈ encoding.field index size offset) :
      ∃ operand ∈ encoding.operands, field.operand = operand.valuePart := by
    obtain ⟨operand, hoperand, rfl⟩ := mem_field h
    exact ⟨operand, List.mem_of_getElem? hoperand, rfl⟩
  unfold fields at h
  unfold valueOperands
  cases hmode : encoding.opcode.mode with
  | implied | accumulator | stack | interrupt | relative | relativeLong => simp [hmode] at h
  | blockMove =>
    simp only [hmode] at h
    exact ⟨by decide, (List.mem_append.mp h).elim hany hany⟩
  | _ =>
    simp only [hmode] at h
    exact ⟨by decide, hfirst h⟩

/-- A value that is not refused is written. -/
theorem unrefused {step : Except EvalError Number} {refused : Number → Prop}
    [DecidablePred refused] {cause : SizeFault} {written : Number → List UInt8}
    (h : ∀ found, (step.mapError Fault.ofEval >>= fun number =>
      if refused number then .error (.tooLarge cause) else pure (written number)) ≠
        .error (.tooLarge found)) :
    (step.mapError Fault.ofEval >>= fun number =>
      if refused number then .error (.tooLarge cause) else pure (written number)) =
        (step >>= fun number => pure (written number)).mapError Fault.ofEval := by
  cases step with
  | error found => rfl
  | ok number => exact if_neg (ite_ne_left_iff.mp (h cause)).1

section Selected

variable (hselected : encoding.Selected widths)
  (hfree : ∀ operand ∈ encoding.valueOperands, operand.carried.LabelFree)

include hselected

/-- The operands of an instruction are of the kind of its mode. -/
theorem Selected.suits : encoding.opcode.mode.operandKind.Suits encoding.operands :=
  Opcode.suits_of_accepts (Opcode.accepts_of_select hselected.opcode)

include hfree

/-- An operand has the value that it carries, in all scopes. -/
theorem Selected.collapse_valuePart (hbranch : encoding.opcode.mode.operandKind ≠ .branch)
    {operand : Expr} (hoperand : operand ∈ encoding.valueOperands) (scope : Scope) :
    operand.valuePart.collapse scope = operand.carried.closedValue :=
  (hselected.suits.carriesValue hbranch operand hoperand).collapse (hfree operand hoperand) scope

/-- An instruction without labels is never too large for the mode that is selected for it. -/
theorem Selected.not_tooLarge (scope : Scope) (cause : SizeFault) :
    encoding.bytes (fun e => (e.collapse scope).mapError Fault.ofEval) ≠
      .error (.tooLarge cause) := by
  intro h
  obtain ⟨field, hfield, number, hnumber, hwidth⟩ :=
    exists_of_tooLarge (fun _ => mapError_ofEval_ne_tooLarge) h
  obtain ⟨hbranch, operand, hoperand, hpart⟩ := exists_valueOperand hfield
  have hclosed : field.operand.LabelFree := hpart ▸
    (hselected.suits.carriesValue hbranch operand hoperand).labelFree (hfree operand hoperand)
  have hfits := fits_of_accepts hselected.wide (Opcode.accepts_of_select hselected.opcode)
    field hfield
  have hvalue := mapError_eq_ok.mp hnumber
  rw [hclosed.collapse] at hvalue
  exact hwidth (hclosed.width_bounds hfits hvalue)

/-- An instruction that takes one value has a first operand, and takes the value that it carries. -/
theorem Selected.exists_single
    (hkind : encoding.opcode.mode.operandKind ∉ [.bare, .accumulator, .move, .branch])
    (scope : Scope) :
    ∃ operand rest, encoding.operands = operand :: rest ∧
      encoding.operandValue (fun e => (e.collapse scope).mapError Fault.ofEval) 0 =
        operand.carried.closedValue.mapError Fault.ofEval := by
  have hbranch : encoding.opcode.mode.operandKind ≠ .branch := fun h => hkind (by simp [h])
  have hsuits := hselected.suits
  have hcollapse {operand : Expr} (h : operand ∈ encoding.valueOperands) :=
    hselected.collapse_valuePart hfree hbranch h scope
  unfold valueOperands at hcollapse
  unfold operandValue
  generalize encoding.opcode.mode.operandKind = kind at *
  cases hoperands : encoding.operands with
  | nil =>
    rw [hoperands] at hsuits
    cases hsuits <;> simp at hkind
  | cons operand rest =>
    refine ⟨operand, rest, rfl, congrArg (Except.mapError Fault.ofEval) (hcollapse ?_)⟩
    cases kind <;> simp [OperandKind.valueOperands, hoperands] at hkind ⊢

/-- A block move takes the values that its two operands carry. -/
theorem Selected.exists_move (hkind : encoding.opcode.mode.operandKind = .move) (scope : Scope) :
    ∃ source destination, encoding.operands = [source, destination] ∧
      encoding.operandValue (fun e => (e.collapse scope).mapError Fault.ofEval) 0 =
        source.carried.closedValue.mapError Fault.ofEval ∧
      encoding.operandValue (fun e => (e.collapse scope).mapError Fault.ofEval) 1 =
        destination.carried.closedValue.mapError Fault.ofEval := by
  have hcollapse {operand : Expr} (h : operand ∈ encoding.operands) :
      operand.valuePart.collapse scope = operand.carried.closedValue :=
    hselected.collapse_valuePart hfree (by simp [hkind])
      (by simpa [valueOperands, hkind, OperandKind.valueOperands] using h) scope
  have hsuits := hselected.suits
  rw [hkind] at hsuits
  unfold operandValue
  generalize encoding.operands = operands at *
  cases hsuits with
  | @move source destination =>
    exact ⟨source, destination, rfl,
      congrArg (Except.mapError Fault.ofEval) (hcollapse (by simp)),
      congrArg (Except.mapError Fault.ofEval) (hcollapse (by simp))⟩

/-- The bytes behind the opcode of an instruction without labels are those of the values that it
carries. -/
theorem Selected.operandBytes_eq (hbranch : encoding.opcode.mode.operandKind ≠ .branch)
    (scope : Scope) :
    encoding.operandBytes (fun e => (e.collapse scope).mapError Fault.ofEval) =
      (encoding.carriedBytes (encoding.opcode.encodedSize widths)).mapError Fault.ofEval := by
  have hnever (cause : SizeFault) :
      encoding.operandBytes (fun e => (e.collapse scope).mapError Fault.ofEval) ≠
        .error (.tooLarge cause) :=
    fun h => hselected.not_tooLarge hfree scope cause (bind_eq_error.mpr (.inl h))
  have hwide := hselected.wide
  have hsingle := hselected.exists_single hfree
  unfold Opcode.isWide at hwide
  unfold operandBytes at hnever ⊢
  unfold carriedBytes Opcode.encodedSize Opcode.isWide
  cases hmode : encoding.opcode.mode with
  | implied | accumulator | stack | interrupt => rfl
  | relative | relativeLong => simp [hmode, AddressingMode.operandKind] at hbranch
  | immediate =>
    obtain ⟨operand, rest, hoperands, hvalue⟩ :=
      hsingle (by simp [hmode, AddressingMode.operandKind]) scope
    simp only [hmode, hvalue, hoperands] at hnever hwide ⊢
    rw [← hwide]
    cases hwidth : encoding.wide with
    | true =>
      simp only [hwidth, if_true] at hnever ⊢
      exact unrefused hnever
    | false =>
      simp only [hwidth, Bool.false_eq_true, if_false] at hnever ⊢
      exact unrefused hnever
  | blockMove =>
    obtain ⟨source, destination, hoperands, hsource, hdestination⟩ :=
      hselected.exists_move hfree (by simp [hmode, AddressingMode.operandKind]) scope
    simp only [hmode, hoperands, hsource, hdestination] at hnever ⊢
    generalize source.carried.closedValue = step at hnever ⊢
    cases step with
    | error cause => rfl
    | ok number => exact unrefused hnever
  | _ =>
    obtain ⟨operand, rest, hoperands, hvalue⟩ :=
      hsingle (by simp [hmode, AddressingMode.operandKind]) scope
    simp only [hmode, hvalue, hoperands] at hnever ⊢
    exact unrefused hnever

/-- An instruction without labels is its opcode and the bytes of the values that it carries. -/
theorem Selected.bytes_eq (hbranch : encoding.opcode.mode.operandKind ≠ .branch) (scope : Scope) :
    encoding.bytes (fun e => (e.collapse scope).mapError Fault.ofEval) =
      ((encoding.carriedBytes (encoding.opcode.encodedSize widths)).map
        (encoding.opcode.code :: ·)).mapError Fault.ofEval := by
  rw [bytes, hselected.operandBytes_eq hfree hbranch scope]
  cases encoding.carriedBytes (encoding.opcode.encodedSize widths) <;> rfl

end Selected

end Encoding

/-! ## Operands as they are written -/

namespace Expr

variable {ε : Type} {choose : Name → Except ε (Option Expr)} {e : Expr}

/-- Nothing is bound in an expression without names to look up. -/
theorem bindNames_of_closed (h : e.openNames = []) : e.bindNames choose = .ok e := by
  refine bindNames_of_unchosen fun name hname => ?_
  rw [h] at hname
  cases hname

/-- An operand that is not plain keeps its form when names in it are bound. -/
theorem shape_bindNames {result : Expr} (h : e.bindNames choose = .ok result)
    (hplain : e.isPlain = false) : e.shape.bindNames choose = .ok result.shape := by
  induction e using Expr.inductionOn generalizing result with
  | immediate operand ih | group items long ih =>
    obtain ⟨inner, hinner, hresult⟩ := bind_eq_ok.mp h
    cases hresult
    exact h
  | bound name value ih =>
    obtain ⟨inner, hinner, hresult⟩ := bind_eq_ok.mp h
    cases hresult
    have hshape := ih hinner hplain
    exact hshape
  | _ => cases hplain

/-- What an operand carries stays the same when it has no names to look up. -/
theorem carried_bindNames {result : Expr} (h : e.bindNames choose = .ok result)
    (hclosed : e.carried.openNames = []) : result.carried = e.carried := by
  -- An operand that carries itself is closed, and nothing is bound in it.
  have hself (hcarried : e.carried = e) : result.carried = e.carried := by
    cases (bindNames_of_closed (hcarried ▸ hclosed)).symm.trans h
    rfl
  cases hplain : e.isPlain with
  | true => exact hself (carried_of_isPlain hplain)
  | false =>
    have hbound := shape_bindNames h hplain
    cases hshape : e.shape with
    | immediate operand =>
      have hcarried : e.carried = operand := by rw [carried, hshape]
      rw [hshape] at hbound
      obtain ⟨inner, hinner, hresult⟩ := bind_eq_ok.mp hbound
      cases (bindNames_of_closed (hcarried ▸ hclosed)).symm.trans hinner
      rw [hcarried, carried, ← Except.ok.inj hresult]
    | group items long =>
      cases items with
      | nil => exact hself (by rw [carried, hshape])
      | cons first rest =>
        have hcarried : e.carried = first := by rw [carried, hshape]
        simp only [hshape, bindNames, bindAll, bind_eq_ok, pure_eq_ok] at hbound
        obtain ⟨_, ⟨inner, hinner, others, -, rfl⟩, hresult⟩ := hbound
        cases (bindNames_of_closed (hcarried ▸ hclosed)).symm.trans hinner
        rw [hcarried, carried, ← hresult]
    | _ => simp [isPlain, isGroup, isImmediate, hshape] at hplain

end Expr

/-- What an operand carries stays the same when the operand is prepared, unless it has names to look
up. -/
theorem Prepared.carried {environment : Environment} {calls : List MacroCall} {address : Int}
    {operand bound : Expr} (h : Prepared environment calls address operand bound)
    (hclosed : operand.carried.openNames = []) : bound.carried = operand.carried := by
  obtain ⟨argued, hargued, hequated⟩ := h
  have hsame : argued.carried = operand.carried := by
    cases calls with
    | nil =>
      cases hargued
      rfl
    | cons call outer => exact Expr.carried_bindNames hargued hclosed
  exact (Expr.carried_bindNames hequated (hsame ▸ hclosed)).trans hsame

/-- The operands that carry values stand at the same places when all operands are prepared. -/
theorem OperandKind.valueOperands_forall₂ (kind : OperandKind) {related : Expr → Expr → Prop}
    {before after : List Expr} (h : List.Forall₂ related before after) :
    List.Forall₂ related (kind.valueOperands before) (kind.valueOperands after) := by
  cases kind with
  | bare | accumulator => exact .nil
  | move => exact h
  | _ => exact List.forall₂_take 1 h

/-- Operands that carry the same before and after they are prepared. -/
theorem carried_eq_of_prepared {environment : Environment} {calls : List MacroCall} {address : Int}
    {before after : List Expr}
    (h : List.Forall₂ (Prepared environment calls address) before after)
    (hclosed : ∀ operand ∈ before, operand.carried.openNames = []) :
    after.map Expr.carried = before.map Expr.carried := by
  induction h with
  | nil => rfl
  | cons hfirst hrest ih =>
    rw [List.map_cons, List.map_cons, hfirst.carried (hclosed _ List.mem_cons_self),
      ih fun operand hoperand => hclosed operand (List.mem_cons_of_mem _ hoperand)]

/-- Instructions without labels encode what is selected for them. When the values that the operands
carry need no labels and their literals state at least one byte, an instruction is never too large
for the mode that is selected for it. Unless it branches, it is encoded by the opcode and as many
low bytes of the value that its operand carries as the selected length leaves. This applies to each
instruction that is laid out, and an operand that carries no labels as it is written carries the
same when it is prepared. -/
theorem label_free_encodes :
    (∀ encoding widths, Encoding.Selected encoding widths →
      (∀ operand ∈ encoding.valueOperands, operand.carried.LabelFree) →
      ∀ labels second,
        (∀ cause, emitOperation labels second (.instruction encoding) ≠ .error (.tooLarge cause)) ∧
        (encoding.opcode.mode ∉ [.relative, .relativeLong] →
          (emitOperation labels second (.instruction encoding)).map (fun emitted =>
              emitted.code.bytes) =
            ((encoding.carriedBytes (encoding.opcode.encodedSize widths)).map
              (encoding.opcode.code :: ·)).mapError Fault.ofEval)) ∧
    ∀ environment calls location layout mnemonic operands placed size next,
      placeOperation environment calls location layout (.instruction mnemonic operands) =
        .ok (placed, size, next) →
      ∃ encoding, placed = .instruction encoding ∧ encoding.Selected layout.widths ∧
        size = encoding.opcode.encodedSize layout.widths ∧
        ((∀ operand ∈ encoding.opcode.mode.operandKind.valueOperands operands,
            operand.carried.openNames = []) →
          encoding.valueOperands.map Expr.carried =
            (encoding.opcode.mode.operandKind.valueOperands operands).map Expr.carried) := by
  constructor
  · intro encoding widths hselected hfree labels second
    have hbytes : emitOperation labels second (.instruction encoding) =
        encoding.bytes (operandNumber labels second) >>= fun bytes => .ok (.here second
          ⟨bytes, [.row encoding.address bytes (encoding.listingText bytes) none]⟩) := rfl
    refine ⟨fun cause h => ?_, fun hmode => ?_⟩
    · rw [hbytes] at h
      obtain h | ⟨bytes, -, h⟩ := bind_eq_error.mp h
      · exact hselected.not_tooLarge hfree _ cause h
      · cases h
    · have hbranch : encoding.opcode.mode.operandKind ≠ .branch := by
        intro hkind
        revert hmode hkind
        cases encoding.opcode.mode <;> decide
      have hcode : (emitOperation labels second (.instruction encoding)).map (fun emitted =>
          emitted.code.bytes) = encoding.bytes (operandNumber labels second) := by
        rw [hbytes]
        cases encoding.bytes (operandNumber labels second) <;> rfl
      exact hcode.trans (hselected.bytes_eq hfree hbranch _)
  · intro environment calls location layout mnemonic operands placed size next h
    obtain ⟨encoding, rfl, rfl, hprepared, hselect, hwide, -, rfl⟩ := placeOperation_instruction h
    refine ⟨encoding, rfl, ⟨hselect, hwide⟩, rfl, fun hclosed => ?_⟩
    exact carried_eq_of_prepared (OperandKind.valueOperands_forall₂ _ hprepared) hclosed

/-- A load through a pointer, in a segment of nine bytes. -/
theorem label_free_encodes_load :
    ∃ (layout next : Layout) (encoding : Encoding),
      placeOperation ⟨[], [], ⟨.ofTable [], []⟩⟩ [] default layout
          (.instruction "lda" [.group [.number (.ofHex 0x12 1)] false, .name ⟨"y", false⟩]) =
        .ok (.instruction encoding, 2, next) ∧
      encoding.Selected layout.widths ∧
      (∀ operand ∈ encoding.valueOperands, operand.carried.LabelFree) ∧
      encoding.opcode.mode ∉ [.relative, .relativeLong] ∧
      encoding.valueOperands.map Expr.carried = [.number (.ofHex 0x12 1)] ∧
      (emitOperation [] layout (.instruction encoding)).map (fun emitted => emitted.code.bytes) =
        .ok [0xB1, 0x12] := by
  have hplaced : placeOperation ⟨[], [], ⟨.ofTable [], []⟩⟩ [] default
      { Layout.empty with segments := [("C", .new "c" 0x8000 9 0 default)], current := some "C" }
      (.instruction "lda" [.group [.number (.ofHex 0x12 1)] false, .name ⟨"y", false⟩]) =
    .ok (.instruction ⟨"lda", [.group [.number (.ofHex 0x12 1)] false, .name ⟨"y", false⟩],
      ⟨"lda", .directPageIndirectIndexedY, 0xB1, .fixed⟩, false, 0⟩, 2,
      { Layout.empty with
        segments := [("C", .new "c" 0x8000 9 0 default)], current := some "C" }) := rfl
  obtain ⟨encoding, hencoding, hselected, -, hcarried⟩ :=
    label_free_encodes.2 _ _ _ _ _ _ _ _ _ hplaced
  cases hencoding
  have hfree : ∀ operand ∈ [Expr.group [.number (.ofHex 0x12 1)] false],
      operand.carried.LabelFree := by
    intro operand hoperand
    obtain rfl := List.mem_singleton.mp hoperand
    exact ⟨rfl, by decide⟩
  have hmode : AddressingMode.directPageIndirectIndexedY ∉ [.relative, .relativeLong] := by decide
  exact ⟨_, _, _, hplaced, hselected, hfree, hmode, hcarried (by decide),
    (label_free_encodes.1 _ _ hselected hfree [] _).2 hmode⟩

end Asm65816
