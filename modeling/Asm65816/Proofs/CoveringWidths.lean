import Asm65816.Proofs.WidthEstimates

/-!
# Widths that cover their values

Every operator but the negative sign and the complement states a width that covers the value of its
result: binary operators and byte selectors judge it by the value, and a positive sign hands its
operand on. An expression without the two signs therefore covers its value as soon as its literals
and its labels do. A mask or a right shift may state fewer bytes than its operands, and a truth
value states one; no other binary operator states fewer than either operand.
-/

namespace Asm65816

/-- A number whose width covers the bytes that its value needs. -/
def Number.Covers (n : Number) : Prop := requiredBytes n.value ≤ n.width

/-- One byte covers the numbers of one byte. -/
theorem Number.covers_of_byte {n : Number} (hwidth : n.width = 1) (hlow : 0 ≤ n.value)
    (hhigh : n.value < 256) : n.Covers := by
  unfold Covers
  rw [hwidth]
  exact requiredBytes_le (Nat.le_refl 1) (.of_unsigned hlow hhigh)

/-- Every prefix operator but the negative sign and the complement keeps values covered. -/
theorem UnaryOp.apply_covers {op : UnaryOp} {n result : Number} (hop : op.keepsWidth = false)
    (hn : n.Covers) (h : op.apply n = .ok result) : result.Covers := by
  cases op with
  | negate | complement => cases hop
  | plus =>
    cases h
    exact hn
  | lowByte =>
    cases h
    exact Number.covers_of_byte rfl (by dsimp only; omega) (by dsimp only; omega)
  | highByte =>
    cases h
    exact Number.covers_of_byte rfl (by dsimp only; omega) (by dsimp only; omega)
  | logicalNot =>
    cases h
    exact Number.covers_of_byte rfl (truthWord_range _).1 (truthWord_range _).2

namespace BinaryOp

/-- The width of a result covers its value, whatever the operands are. -/
theorem apply_covers {op : BinaryOp} {a b result : Number} (h : op.apply a b = .ok result) :
    result.Covers := by
  obtain ⟨value, hvalue, hresult⟩ := bind_eq_ok.mp h
  cases hresult
  cases hboolean : op.isBoolean with
  | true =>
    obtain ⟨truth, rfl⟩ := applyValue_truth hboolean hvalue
    exact Number.covers_of_byte (if_pos hboolean) (truthWord_range _).1 (truthWord_range _).2
  | false => exact requiredBytes_le_resultWidth hboolean

/-- An operator that neither compares nor masks states at least the bytes of its operands. -/
theorem operands_le_resultWidth {op : BinaryOp} (hboolean : op.isBoolean = false)
    (hshrink : op.canShrink = false) (a b : Number) (value : Int) :
    a.width ≤ op.resultWidth a b value ∧ b.width ≤ op.resultWidth a b value := by
  rw [resultWidth_eq hboolean, if_neg (by simp [hshrink])]
  omega

end BinaryOp

namespace Expr

mutual

/-- An expression without a negative sign and without a complement, in bound values too. -/
def WithoutSigns : Expr → Prop
  | .number _ => True
  | .name _ => True
  | .bound _ value => value.WithoutSigns
  | .unary op e => op.keepsWidth = false ∧ e.WithoutSigns
  | .binary _ l r => l.WithoutSigns ∧ r.WithoutSigns
  | .group items _ => WithoutSignsAll items
  | .text _ _ => True
  | .immediate e => e.WithoutSigns

/-- Items of a group without the two signs. -/
def WithoutSignsAll : List Expr → Prop
  | [] => True
  | e :: rest => e.WithoutSigns ∧ WithoutSignsAll rest

end

/-- The value of an expression without the two signs is covered when its literals and the numbers of
the scope are. -/
theorem WithoutSigns.collapse_covers {scope : Scope} {e : Expr} {n : Number}
    (hsigns : e.WithoutSigns) (hliterals : e.StatesWidths)
    (hscope : ∀ name found, scope name = some found → found.Covers)
    (h : e.collapse scope = .ok n) : n.Covers := by
  induction e using Expr.inductionOn generalizing n with
  | number value =>
    cases h
    exact hliterals value (List.mem_singleton_self value)
  | name name =>
    rw [collapse] at h
    split at h
    case h_1 value hvalue =>
      cases h
      exact hscope name n hvalue
    case h_2 => cases h
  | bound name value ih => exact ih hsigns hliterals h
  | unary op operand ih =>
    rw [collapse_unary, bind_eq_ok] at h
    obtain ⟨value, hvalue, happly⟩ := h
    exact UnaryOp.apply_covers hsigns.1 (ih hsigns.2 hliterals hvalue) happly
  | binary op left right ihl ihr =>
    -- The operands need not be covered: the width is judged by the result.
    simp only [collapse_binary, bind_eq_ok] at h
    obtain ⟨a, -, b, -, happly⟩ := h
    exact BinaryOp.apply_covers happly
  | group items long ih =>
    obtain ⟨single, rfl, hsingle⟩ := collapse_group_eq_ok.mp h
    exact ih single List.mem_cons_self hsigns.1 hliterals.of_group hsingle
  | text content petscii => cases h
  | immediate operand ih => exact ih hsigns hliterals h

end Expr

/-- The stated width covers the value, except through the negative sign and the complement: an
expression without them, whose literals and scope state the bytes that their values need, has a
value of at least one byte that fits the width it states. A binary operator that neither masks nor
compares states at least the bytes of both operands as well, whatever they are. -/
theorem widths_cover_values (scope : Scope) :
    (∀ (e : Expr) (n : Number), e.WithoutSigns → e.StatesWidths →
      (∀ name found, scope name = some found → requiredBytes found.value ≤ found.width) →
      e.collapse scope = .ok n → 1 ≤ requiredBytes n.value ∧ requiredBytes n.value ≤ n.width) ∧
    ∀ op l r n, op.canShrink = false → op.isBoolean = false →
      (Expr.binary op l r).collapse scope = .ok n →
        ∃ a b, l.collapse scope = .ok a ∧ r.collapse scope = .ok b ∧
          a.width ≤ n.width ∧ b.width ≤ n.width := by
  constructor
  · intro e n hsigns hliterals hscope h
    exact ⟨requiredBytes_pos _, hsigns.collapse_covers hliterals hscope h⟩
  · intro op l r n hshrink hboolean h
    obtain ⟨a, b, value, ha, hb, -, rfl⟩ := Expr.collapse_binary_eq_ok h
    obtain ⟨hleft, hright⟩ := BinaryOp.operands_le_resultWidth hboolean hshrink a b value
    exact ⟨a, b, ha, hb, hleft, hright⟩

/-- `(x & $00ff) - 400` with a label `x` at 0x1234: the mask states one byte, and the difference,
which is negative, the two bytes of the literal. -/
theorem widths_cover_values_difference :
    ∃ (mask difference : Expr) (scope : Scope) (n a b : Number),
      mask.collapse scope = .ok ⟨0x34, .hexadecimal, 1⟩ ∧
      difference = .binary .sub (.group [mask] false) (.number (.ofInt 400)) ∧
      difference.collapse scope = .ok n ∧ n.value = -348 ∧
      requiredBytes n.value = 2 ∧ requiredBytes n.value ≤ n.width ∧
      (Expr.group [mask] false).collapse scope = .ok a ∧ a.width ≤ n.width ∧
      (Expr.number (.ofInt 400)).collapse scope = .ok b ∧ b.width ≤ n.width := by
  let mask : Expr := .binary .bitAnd (.name ⟨"x", false⟩) (.number (.ofHex 0xFF 2))
  let difference : Expr := .binary .sub (.group [mask] false) (.number (.ofInt 400))
  let scope : Scope := fun name => if name.ident = "x" then some (.ofHex 0x1234 2) else none
  have hscope : ∀ name n, scope name = some n → requiredBytes n.value ≤ n.width := by
    intro name n h
    simp only [scope, Option.ite_none_right_eq_some, Option.some.injEq] at h
    obtain ⟨-, rfl⟩ := h
    decide
  have hsigns : difference.WithoutSigns := ⟨⟨⟨trivial, trivial⟩, trivial⟩, trivial⟩
  have hvalue : difference.collapse scope = .ok ⟨-348, .hexadecimal, 2⟩ := rfl
  obtain ⟨hcovers, hoperands⟩ := widths_cover_values scope
  obtain ⟨a, b, ha, hb, haw, hbw⟩ := hoperands .sub _ _ _ rfl rfl hvalue
  exact ⟨mask, difference, scope, _, a, b, rfl, rfl, hvalue, rfl, rfl,
    (hcovers difference _ hsigns (by decide) hscope hvalue).2, ha, haw, hb, hbw⟩

/-- The negative sign hands on the one byte of 255. -/
example : (Expr.unary .negate (.number (.ofInt 255))).closedValue = .ok ⟨-255, .decimal, 1⟩ ∧
    requiredBytes (-255) = 2 := ⟨rfl, rfl⟩

end Asm65816
