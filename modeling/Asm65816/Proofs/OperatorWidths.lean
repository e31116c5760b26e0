import Asm65816.Proofs.BranchReach
import Asm65816.Proofs.OperandFields
import Mathlib.Tactic.GCongr
import Mathlib.Tactic.Linarith
import Mathlib.Tactic.Positivity

/-!
# Estimates of operators

The estimate of an operation is made from the estimates of its operands, before labels have
addresses; the width of its result is judged by the value. The two rules agree for bits that are
selected from unsigned numbers, and for shifts of numbers that are within their estimates. The
estimate leaves no room for the carry of a sum or a product, nor for the widths of operands that a
remainder or a shift takes over. It is too small exactly then.
-/

namespace Asm65816

/-! ## The bytes of results -/

/-- The width that a prefix operator states for its result, from that of its operand. -/
def UnaryOp.resultWidth (op : UnaryOp) (width : Nat) : Nat :=
  match op with
  | negate | plus | complement => width
  | lowByte | highByte | logicalNot => 1

theorem UnaryOp.apply_width {op : UnaryOp} {n result : Number} (h : op.apply n = .ok result) :
    result.width = op.resultWidth n.width := by
  cases op with
  | negate | complement =>
    obtain ⟨value, -, hresult⟩ := bind_eq_ok.mp h
    cases hresult
    rfl
  | plus | lowByte | highByte | logicalNot =>
    cases h
    rfl

/-- The first item of an ascending list that passes a test is no more than any other one. -/
theorem find?_getD_le {items : List Nat} (hitems : items.Pairwise (· < ·)) {test : Nat → Bool}
    {item : Nat} (hmem : item ∈ items) (htest : test item = true) (fallback : Nat) :
    (items.find? test).getD fallback ≤ item := by
  induction items with
  | nil => cases hmem
  | cons first rest ih =>
    rw [List.pairwise_cons] at hitems
    cases hfirst : test first with
    | true =>
      rw [List.find?_cons_of_pos hfirst, Option.getD_some]
      rcases List.mem_cons.mp hmem with rfl | hrest
      · exact Nat.le_refl _
      · exact Nat.le_of_lt (hitems.1 item hrest)
    | false =>
      rw [List.find?_cons_of_neg (by simp [hfirst])]
      rcases List.mem_cons.mp hmem with rfl | hrest
      · cases hfirst.symm.trans htest
      · exact ih hitems.2 hrest

theorem requiredBytes_le_eight (value : Int) : requiredBytes value ≤ 8 := by
  unfold requiredBytes
  dsimp only
  generalize hfound : List.find? _ _ = found
  cases found with
  | none => exact Nat.le_refl 8
  | some count =>
    have hmem := List.mem_of_find?_eq_some hfound
    simp only [List.mem_cons, List.not_mem_nil, or_false] at hmem
    rw [Option.getD_some]
    omega

theorem requiredBytes_pos (value : Int) : 1 ≤ requiredBytes value := by
  unfold requiredBytes
  dsimp only
  generalize hfound : List.find? _ _ = found
  cases found with
  | none => decide
  | some count =>
    have hmem := List.mem_of_find?_eq_some hfound
    simp only [List.mem_cons, List.not_mem_nil, or_false] at hmem
    rw [Option.getD_some]
    omega

/-- A value needs no more bytes than a field that holds it has. -/
theorem requiredBytes_le {value : Int} {count : Nat} (hcount : 1 ≤ count)
    (h : InField value count) : requiredBytes value ≤ count := by
  by_cases hlong : 8 ≤ count
  · exact Nat.le_trans (requiredBytes_le_eight value) hlong
  · refine find?_getD_le (by decide) ?_ ?_ 8
    · simp only [List.mem_cons, List.not_mem_nil, or_false]
      omega
    · split
      · exact decide_eq_true h.2
      · exact decide_eq_true h.1

/-- Fields behind each other tell as many values apart as one. -/
theorem fieldSpan_add (first second : Nat) :
    fieldSpan (first + second) = fieldSpan first * fieldSpan second := by
  induction first with
  | zero => rw [Nat.zero_add, fieldSpan, Int.one_mul]
  | succ first ih => rw [Nat.succ_add, fieldSpan, ih, fieldSpan, Int.mul_assoc]

theorem fieldSpan_eq_two_pow (count : Nat) : fieldSpan count = 2 ^ (8 * count) := by
  rw [fieldSpan_eq_pow (show Nat.pow 2 8 = 256 from rfl)]
  exact Int.natCast_pow 2 (8 * count)

/-- A value that is shifted to the right needs as many bytes fewer as it is shifted whole bytes. -/
theorem InField.shiftRight {value : Int} {count : Nat} (h : InField value count) (amount : Nat) :
    InField (value / 2 ^ amount) (max (count - amount / 8) 1) := by
  obtain ⟨hlow, hhigh⟩ := h
  generalize hleft : max (count - amount / 8) 1 = left
  obtain ⟨half, hhalf⟩ : ∃ half, fieldSpan left = 2 * half := by
    obtain ⟨less, rfl⟩ : ∃ less, left = less + 1 := ⟨left - 1, by omega⟩
    exact ⟨128 * fieldSpan less, by rw [fieldSpan]; omega⟩
  have hpow : (0 : Int) < 2 ^ amount := by positivity
  -- The bits that go and the bytes that stay make up the field.
  have hspan : fieldSpan count ≤ 2 ^ amount * fieldSpan left := by
    calc fieldSpan count ≤ fieldSpan (amount / 8 + left) := fieldSpan_mono (by omega)
      _ = 2 ^ (8 * (amount / 8)) * fieldSpan left := by rw [fieldSpan_add, fieldSpan_eq_two_pow]
      _ ≤ 2 ^ amount * fieldSpan left := by
        have := fieldSpan_pos left
        gcongr
        · decide
        · omega
  constructor
  · rw [hhalf]
    have : -half ≤ value / 2 ^ amount := by
      rw [Int.le_ediv_iff_mul_le hpow]
      nlinarith
    omega
  · exact Int.ediv_lt_of_lt_mul hpow (by rw [Int.mul_comm]; omega)

/-- A value that is shifted to the left needs as many bytes more as it is shifted bytes begun. -/
theorem InField.shiftLeft {value : Int} {count : Nat} (h : InField value count) (amount : Nat) :
    InField (value * 2 ^ amount) (count + (amount + 7) / 8) := by
  obtain ⟨hlow, hhigh⟩ := h
  have hpow : (0 : Int) < 2 ^ amount := by positivity
  have hspan : fieldSpan count * 2 ^ amount ≤ fieldSpan (count + (amount + 7) / 8) := by
    rw [fieldSpan_add, fieldSpan_eq_two_pow ((amount + 7) / 8)]
    have := fieldSpan_pos count
    gcongr
    · decide
    · omega
  constructor
  · nlinarith
  · nlinarith

/-- A value that a field of `count` bytes holds as an unsigned number. -/
def InUnsignedField (value : Int) (count : Nat) : Prop := 0 ≤ value ∧ value < fieldSpan count

theorem InUnsignedField.inField {value : Int} {count : Nat} (h : InUnsignedField value count) :
    InField value count :=
  .of_unsigned h.1 h.2

theorem InUnsignedField.mono {value : Int} {count more : Nat} (h : InUnsignedField value count)
    (hle : count ≤ more) : InUnsignedField value more :=
  ⟨h.1, Int.lt_of_lt_of_le h.2 (fieldSpan_mono hle)⟩

/-- The pattern of an unsigned number has its bits only. -/
theorem InUnsignedField.toNat_lt {value : Int} {count : Nat} (h : InUnsignedField value count) :
    (BitVec.ofInt 64 value).toNat < 2 ^ (8 * count) := by
  obtain ⟨hlow, hhigh⟩ := h
  rw [fieldSpan_eq_two_pow] at hhigh
  have hvalue : value.toNat < 2 ^ (8 * count) := by
    have hcast : (value.toNat : Int) < ((2 ^ (8 * count) : Nat) : Int) := by
      rw [Int.toNat_of_nonneg hlow]
      push_cast
      exact hhigh
    exact_mod_cast hcast
  rw [BitVec.toNat_ofInt]
  have hmod : (value % ↑(2 ^ 64 : Nat)).toNat ≤ value.toNat := by omega
  omega

/-- A pattern of few bits is that of an unsigned number. -/
theorem bitwise_inUnsignedField {op : BitVec 64 → BitVec 64 → BitVec 64} {a b : Int} {count : Nat}
    (hcount : count < 8)
    (h : (op (BitVec.ofInt 64 a) (BitVec.ofInt 64 b)).toNat < 2 ^ (8 * count)) :
    InUnsignedField (bitwise op a b) count := by
  have hbound : 2 ^ (8 * count) ≤ 2 ^ 63 := Nat.pow_le_pow_right (by decide) (by omega)
  have hvalue : bitwise op a b = (op (BitVec.ofInt 64 a) (BitVec.ofInt 64 b)).toNat := by
    rw [bitwise, BitVec.toInt_eq_toNat_of_lt]
    omega
  refine ⟨by omega, ?_⟩
  rw [hvalue, fieldSpan_eq_two_pow]
  exact_mod_cast h

/-- Unsigned numbers have as many bytes in common as the shorter one has. -/
theorem bitAnd_inUnsignedField {a b : Int} {first second : Nat} (ha : InUnsignedField a first)
    (hb : InUnsignedField b second) (hcount : min first second < 8) :
    InUnsignedField (bitwise (· &&& ·) a b) (min first second) := by
  refine bitwise_inUnsignedField hcount ?_
  rw [BitVec.toNat_and]
  rcases Nat.le_total first second with hle | hle
  · rw [Nat.min_eq_left hle]
    exact Nat.lt_of_le_of_lt Nat.and_le_left ha.toNat_lt
  · rw [Nat.min_eq_right hle]
    exact Nat.lt_of_le_of_lt Nat.and_le_right hb.toNat_lt

theorem bitOr_inUnsignedField {a b : Int} {count : Nat} (ha : InUnsignedField a count)
    (hb : InUnsignedField b count) (hcount : count < 8) :
    InUnsignedField (bitwise (· ||| ·) a b) count := by
  refine bitwise_inUnsignedField hcount ?_
  rw [BitVec.toNat_or]
  exact Nat.or_lt_two_pow ha.toNat_lt hb.toNat_lt

theorem bitXor_inUnsignedField {a b : Int} {count : Nat} (ha : InUnsignedField a count)
    (hb : InUnsignedField b count) (hcount : count < 8) :
    InUnsignedField (bitwise (· ^^^ ·) a b) count := by
  refine bitwise_inUnsignedField hcount ?_
  rw [BitVec.toNat_xor]
  exact Nat.xor_lt_two_pow ha.toNat_lt hb.toNat_lt

/-- A remainder needs no more bytes than the number below the divisor. -/
theorem requiredBytes_fmod_le (value : Int) {divisor : Int} (hdivisor : divisor ≠ 0) :
    requiredBytes (value.fmod divisor) ≤ requiredBytes (divisor - 1) := by
  by_cases hlong : requiredBytes (divisor - 1) < 8
  · refine requiredBytes_le (requiredBytes_pos _) ?_
    obtain ⟨hlow, hhigh⟩ := inField_requiredBytes hlong
    have hspan := fieldSpan_pos (requiredBytes (divisor - 1))
    rcases Int.lt_or_gt_of_ne hdivisor with hneg | hpos
    · have habove := Int.fmod_nonneg_of_pos (-value) (Int.neg_pos_of_neg hneg)
      have hbelow := Int.fmod_lt_of_pos (-value) (Int.neg_pos_of_neg hneg)
      rw [Int.neg_fmod_neg] at habove hbelow
      exact ⟨by omega, by omega⟩
    · have habove := Int.fmod_nonneg_of_pos value hpos
      have hbelow := Int.fmod_lt_of_pos value hpos
      exact ⟨by omega, by omega⟩
  · exact Nat.le_trans (requiredBytes_le_eight _) (by omega)

/-! ## Unsigned numbers -/

/-- A number that is unsigned and within an estimate, and states no more bytes. -/
structure Number.Within (n : Number) (guess : Nat) : Prop where
  positive : 1 ≤ n.width
  width : n.width ≤ guess
  short : guess < 8
  unsigned : InUnsignedField n.value guess

namespace Number.Within

variable {n : Number} {guess more : Nat}

/-- A truth value or a byte is within one byte. -/
theorem byte (hwidth : n.width = 1) (hlow : 0 ≤ n.value) (hhigh : n.value < 256) : n.Within 1 :=
  ⟨Nat.le_of_eq hwidth.symm, Nat.le_of_eq hwidth, by decide, hlow, hhigh⟩

/-- An unsigned number is within the width that it states. -/
theorem stated (hstates : requiredBytes n.value ≤ n.width) (hshort : n.width < 8)
    (hunsigned : 0 ≤ n.value) : n.Within n.width :=
  ⟨Nat.le_trans (requiredBytes_pos _) hstates, Nat.le_refl _, hshort, hunsigned,
    ((inField_requiredBytes (by omega)).mono hstates).2⟩

/-- A number is within every longer estimate. -/
theorem mono (h : n.Within guess) (hle : guess ≤ more) (hshort : more < 8) : n.Within more :=
  ⟨h.positive, Nat.le_trans h.width hle, hshort, h.unsigned.mono hle⟩

end Number.Within

/-! ## Estimates of operations -/

namespace BinaryOp

/-- Operators whose estimate rests on the estimate of the right operand. -/
def estimatesRight : BinaryOp → Bool
  | add | sub | mul | pow | bitAnd | bitXor | bitOr => true
  | _ => false

/-- The estimate for a left shift by a known amount. -/
def grown (left : Nat) (amount : Int) : Nat := min (left + ((min amount 64 + 7) / 8).toNat) 8

/-- The estimate for a right shift by a known amount. -/
def shrunk (left : Nat) (amount : Int) : Nat := max (left - (min (amount / 8) 8).toNat) 1

/-- The estimate for an operation, from the estimates of its operands and the right value, where
that is `known` without labels. -/
def estimate (op : BinaryOp) (left right : Nat) (known : Bool) (value : Int) : Nat :=
  match op with
  | add | sub | mul | pow | bitXor | bitOr => max left right
  | bitAnd => min left right
  | div => left
  | mod => if known then requiredBytes (value - 1) else left
  | shiftLeft => if known ∧ 0 < value then grown left value else left
  | shiftRight => if known ∧ 0 < value then shrunk left value else left
  | _ => 1

/-- Operands for which the estimate of an operation leaves room for its value. Sums, differences,
products, powers and quotients have no room for a carry. Bits stay in their bytes as long as no
operand is negative or beyond its estimate. -/
def Covers (op : BinaryOp) (left right : Nat) (known : Bool) (a b : Number) : Prop :=
  match op with
  | add | sub | mul | pow | div => False
  | bitAnd | bitXor | bitOr => InUnsignedField a.value left ∧ InUnsignedField b.value right
  | mod => known = true
  | shiftLeft => known = true ∧ 0 < b.value ∧ InField a.value left
  | shiftRight => InField a.value left
  | _ => True

/-- What the estimate of an operation overlooks: the width of an operand that the result takes
over, or a value that it leaves no room for. -/
def Overlooks (op : BinaryOp) (left right : Nat) (known : Bool) (a b : Number) (value : Int) :
    Prop :=
  op.canShrink = false ∧ op.estimate left right known b.value < max a.width b.width ∨
    ¬op.Covers left right known a b ∧
      op.estimate left right known b.value < requiredBytes value

variable {op : BinaryOp} {left right : Nat} {known : Bool} {a b : Number} {value : Int}

/-- The places of a shift. -/
theorem placeCount?_eq_some {n : Number} {count : Nat} (h : n.placeCount? = some count) :
    n.value = count := by
  unfold Number.placeCount? at h
  split at h
  case isTrue hrange =>
    cases h
    omega
  case isFalse => cases h

/-- A shift to the left has the value that it should have, as long as it is a word. -/
theorem shiftLeft_eq_ok (h : a.shiftLeft b = .ok value) :
    ∃ amount : Nat, b.value = amount ∧ value = a.value * 2 ^ amount := by
  unfold Number.shiftLeft at h
  split at h
  case h_1 => cases h
  case h_2 amount hamount =>
    refine ⟨amount, placeCount?_eq_some hamount, ?_⟩
    split at h
    case isTrue =>
      obtain ⟨-, hvalue⟩ := demand_eq_ok.mp h
      cases hvalue
      rfl
    case isFalse =>
      split at h
      case isTrue hzero =>
        cases h
        rw [hzero, Int.zero_mul]
      case isFalse => cases h

/-- A shift to the right by less than a word divides; by more it leaves the sign. -/
theorem shiftRight_eq_ok (h : a.shiftRight b = .ok value) :
    ∃ amount : Nat, b.value = amount ∧
      (amount < 64 ∧ value = a.value / 2 ^ amount ∨
        64 ≤ amount ∧ value = if a.value < 0 then -1 else 0) := by
  unfold Number.shiftRight at h
  split at h
  case h_1 => cases h
  case h_2 amount hamount =>
    refine ⟨amount, placeCount?_eq_some hamount, ?_⟩
    split at h
    case isTrue hshort =>
      cases h
      exact .inl ⟨hshort, rfl⟩
    case isFalse hlong =>
      cases h
      exact .inr ⟨Nat.le_of_not_lt hlong, rfl⟩

/-- A known left shift of a number within its estimate is within the estimate. -/
theorem shiftLeft_le_grown (h : a.shiftLeft b = .ok value) (hpositive : 0 < b.value)
    (ha : InField a.value left) : requiredBytes value ≤ grown left b.value := by
  obtain ⟨amount, hamount, rfl⟩ := shiftLeft_eq_ok h
  refine Nat.le_min.mpr ⟨?_, requiredBytes_le_eight _⟩
  by_cases hlong : 64 ≤ amount
  · have hbytes : ((min b.value 64 + 7) / 8).toNat = 8 := by omega
    rw [hbytes]
    exact Nat.le_trans (requiredBytes_le_eight _) (by omega)
  · have hbytes : ((min b.value 64 + 7) / 8).toNat = (amount + 7) / 8 := by omega
    rw [hbytes]
    exact requiredBytes_le (by omega) (ha.shiftLeft amount)

/-- A right shift of a number within its estimate is within the estimate. -/
theorem shiftRight_inField (h : a.shiftRight b = .ok value) (ha : InField a.value left)
    (hleft : 1 ≤ left) : InField value (shrunk left b.value) ∧ InField value left := by
  obtain ⟨amount, hamount, ⟨hshort, rfl⟩ | ⟨-, rfl⟩⟩ := shiftRight_eq_ok h
  · have hshifted := ha.shiftRight amount
    have hbytes : (min (b.value / 8) 8).toNat = amount / 8 := by omega
    rw [shrunk, hbytes]
    exact ⟨hshifted, hshifted.mono (by omega)⟩
  · have hbyte : InField (if a.value < 0 then -1 else 0) 1 := by
      split <;> decide
    exact ⟨hbyte.mono (Nat.le_max_right _ _), hbyte.mono hleft⟩

/-- A right shift keeps a number from being negative. -/
theorem shiftRight_nonneg (h : a.shiftRight b = .ok value) (ha : 0 ≤ a.value) : 0 ≤ value := by
  obtain ⟨amount, -, ⟨-, rfl⟩ | ⟨-, rfl⟩⟩ := shiftRight_eq_ok h
  · exact Int.ediv_nonneg ha (by positivity)
  · rw [if_neg (by omega)]

/-- A remainder is that of a division that rounds down. -/
theorem rem_eq_ok (h : a.rem b = .ok value) : b.value ≠ 0 ∧ value = a.value.fmod b.value := by
  obtain ⟨hzero, h⟩ := refuse_eq_ok.mp h
  obtain ⟨-, h⟩ := refuse_eq_ok.mp h
  cases h
  exact ⟨hzero, rfl⟩

/-- Bits that are put together stay in the bytes of the longer operand. -/
theorem joined_inUnsignedField (hop : op = bitXor ∨ op = bitOr)
    (hvalue : op.applyValue a b = .ok value) (ha : InUnsignedField a.value left)
    (hb : InUnsignedField b.value right) (hcount : max left right < 8) :
    InUnsignedField value (max left right) := by
  have ha := ha.mono (Nat.le_max_left left right)
  have hb := hb.mono (Nat.le_max_right left right)
  rcases hop with rfl | rfl
  · cases hvalue
    exact bitXor_inUnsignedField ha hb hcount
  · cases hvalue
    exact bitOr_inUnsignedField ha hb hcount

/-- The estimate is made from what is known of the right operand. -/
theorem guessWidth_eq (hboolean : op.isBoolean = false) {rightValue : Option Int} {value : Int}
    (hvalue : ∀ known, rightValue = some known → known = value) :
    op.guessWidth left (some right) rightValue =
      some (op.estimate left right rightValue.isSome value) := by
  cases rightValue with
  | none =>
    cases op with
    | equal | notEqual | less | greater | lessEqual | greaterEqual | logicalAnd | logicalOr =>
      cases hboolean
    | _ => simp [guessWidth, estimate]
  | some known =>
    obtain rfl := hvalue known rfl
    cases op with
    | equal | notEqual | less | greater | lessEqual | greaterEqual | logicalAnd | logicalOr =>
      cases hboolean
    | shiftLeft | shiftRight =>
      simp only [guessWidth, estimate, grown, shrunk, Option.isSome_some, true_and]
      split <;> rfl
    | _ => simp [guessWidth, estimate]

/-- An estimate that covers the operands leaves room for the value. -/
theorem requiredBytes_le_estimate (hvalue : op.applyValue a b = .ok value)
    (hcovers : op.Covers left right known a b) (hleft : 1 ≤ left)
    (hright : op.estimatesRight = true → 1 ≤ right) :
    requiredBytes value ≤ op.estimate left right known b.value := by
  have height := requiredBytes_le_eight value
  cases op with
  | equal | notEqual | less | greater | lessEqual | greaterEqual | logicalAnd | logicalOr =>
    obtain ⟨truth, rfl⟩ := applyValue_truth rfl hvalue
    have hone : requiredBytes (truthWord truth) = 1 := by cases truth <;> decide
    exact Nat.le_of_eq hone
  | add | sub | mul | pow | div => cases hcovers
  | bitXor | bitOr =>
    show _ ≤ max left right
    by_cases hlong : 8 ≤ max left right
    · omega
    · have hfield := joined_inUnsignedField (by simp) hvalue hcovers.1 hcovers.2 (by omega)
      exact requiredBytes_le (by omega) hfield.inField
  | bitAnd =>
    cases hvalue
    obtain ⟨ha, hb⟩ := hcovers
    have hright := hright rfl
    show _ ≤ min left right
    by_cases hlong : 8 ≤ min left right
    · omega
    · exact requiredBytes_le (by omega) (bitAnd_inUnsignedField ha hb (by omega)).inField
  | mod =>
    obtain ⟨hzero, rfl⟩ := rem_eq_ok hvalue
    have hknown : known = true := hcovers
    rw [estimate, if_pos hknown]
    exact requiredBytes_fmod_le a.value hzero
  | shiftLeft =>
    obtain ⟨hknown, hpositive, hfield⟩ := hcovers
    rw [estimate, if_pos ⟨hknown, hpositive⟩]
    exact shiftLeft_le_grown hvalue hpositive hfield
  | shiftRight =>
    obtain ⟨hshrunk, hkept⟩ := shiftRight_inField hvalue hcovers hleft
    rw [estimate]
    split
    · exact requiredBytes_le (Nat.le_max_right _ _) hshrunk
    · exact requiredBytes_le hleft hkept

/-- The width that an operator states when its result is no truth value. -/
theorem resultWidth_eq (hboolean : op.isBoolean = false) :
    op.resultWidth a b value =
      if op.canShrink then requiredBytes value
      else max (requiredBytes value) (max a.width b.width) := by
  rw [resultWidth, if_neg (by simp [hboolean])]

/-- An estimate is too small exactly when it overlooks something. -/
theorem estimate_lt_iff (hboolean : op.isBoolean = false) (hvalue : op.applyValue a b = .ok value)
    (hleft : 1 ≤ left) (hright : op.estimatesRight = true → 1 ≤ right) :
    op.estimate left right known b.value < op.resultWidth a b value ↔
      op.Overlooks left right known a b value := by
  have hcovered (hlt : op.estimate left right known b.value < requiredBytes value) :
      ¬op.Covers left right known a b := by
    intro hcovers
    have hle := requiredBytes_le_estimate hvalue hcovers hleft hright
    omega
  rw [resultWidth_eq hboolean, Overlooks]
  cases op.canShrink with
  | true =>
    simp only [if_true, Bool.true_eq_false, false_and, false_or]
    exact ⟨fun hlt => ⟨hcovered hlt, hlt⟩, And.right⟩
  | false =>
    simp only [Bool.false_eq_true, if_false, true_and]
    constructor
    · intro hlt
      rcases lt_max_iff.mp hlt with hlt | hlt
      · exact .inr ⟨hcovered hlt, hlt⟩
      · exact .inl hlt
    · rintro (hlt | ⟨-, hlt⟩)
      · exact lt_max_iff.mpr (.inr hlt)
      · exact lt_max_iff.mpr (.inl hlt)

/-- Operators that give no bits beyond those of unsigned operands. -/
def selectsBits : BinaryOp → Bool
  | bitAnd | bitXor | bitOr | shiftRight => true
  | _ => false

/-- Bits are no truth values. -/
theorem isBoolean_of_selectsBits (h : op.selectsBits = true) : op.isBoolean = false := by
  cases op with
  | bitAnd | bitXor | bitOr | shiftRight => rfl
  | _ => cases h

/-- The bytes that a value needs are stated. -/
theorem requiredBytes_le_resultWidth (hboolean : op.isBoolean = false) :
    requiredBytes value ≤ op.resultWidth a b value := by
  rw [resultWidth_eq hboolean]
  split
  · exact Nat.le_refl _
  · exact Nat.le_max_left _ _

/-- Bits of unsigned numbers are within the estimate. -/
theorem estimate_of_within (hop : op.selectsBits = true) (hvalue : op.applyValue a b = .ok value)
    (ha : a.Within left) (hb : op.estimatesRight = true → b.Within right) (known : Bool) :
    op.estimate left right known b.value < 8 ∧
      InUnsignedField value (op.estimate left right known b.value) ∧
      op.resultWidth a b value ≤ op.estimate left right known b.value := by
  obtain ⟨hposa, hwidtha, hshorta, ha⟩ := ha
  cases op with
  | bitAnd =>
    cases hvalue
    obtain ⟨hposb, hwidthb, hshortb, hb⟩ := hb rfl
    have hcount : 1 ≤ min left right ∧ min left right < 8 := by omega
    have hfield := bitAnd_inUnsignedField ha hb hcount.2
    exact ⟨hcount.2, hfield, requiredBytes_le hcount.1 hfield.inField⟩
  | bitXor | bitOr =>
    obtain ⟨hposb, hwidthb, hshortb, hb⟩ := hb rfl
    have hcount : max left right < 8 := by omega
    have hfield := joined_inUnsignedField (by simp) hvalue ha hb hcount
    have hle := requiredBytes_le (by omega) hfield.inField
    have hwidths : max a.width b.width ≤ max left right := by omega
    exact ⟨hcount, hfield, Nat.max_le.mpr ⟨hle, hwidths⟩⟩
  | shiftRight =>
    obtain ⟨hshrunk, hkept⟩ := shiftRight_inField hvalue ha.inField (by omega)
    have hnonneg := shiftRight_nonneg hvalue ha.1
    have hwidth : shiftRight.resultWidth a b value = requiredBytes value := rfl
    rw [hwidth, estimate]
    split
    · have hpos : 1 ≤ shrunk left b.value := Nat.le_max_right _ _
      have hshort : shrunk left b.value < 8 := by unfold shrunk; omega
      exact ⟨hshort, ⟨hnonneg, hshrunk.2⟩, requiredBytes_le hpos hshrunk⟩
    · exact ⟨hshorta, ⟨hnonneg, hkept.2⟩, requiredBytes_le (by omega) hkept⟩
  | _ => cases hop

end BinaryOp

end Asm65816
