import Asm65816.Proofs.OperatorWidths
import Mathlib.Data.Int.Bitwise

/-!
# Exact operators

The value of an operator in unbounded integer arithmetic, beside the 64-bit words in which it is
evaluated. On words every operator has an exact result that is a word, or fails. The complement
takes its value from the bytes that its operand states, without looking whether it is a word. It
traps when the operand is far below zero.
-/

namespace Asm65816

/-! ## Bits of words -/

/-- The pattern of a word has the bits of its two's complement. -/
theorem getLsbD_ofInt (z : Int) {position : Nat} (h : position < 64) :
    (BitVec.ofInt 64 z).getLsbD position = z.testBit position := by
  cases z with
  | ofNat m =>
    rw [Int.ofNat_eq_natCast, BitVec.ofInt_natCast, BitVec.getLsbD_ofNat]
    simp only [h, decide_true, Bool.true_and]
    rfl
  | negSucc m =>
    rw [BitVec.ofInt_negSucc_eq_not_ofNat, BitVec.getLsbD_not, BitVec.getLsbD_ofNat]
    simp only [h, decide_true, Bool.true_and]
    rfl

/-- The pattern of a word is read back as the word. -/
theorem toInt_ofInt_of_isWord {z : Int} (h : IsWord z) : (BitVec.ofInt 64 z).toInt = z := by
  unfold IsWord minWord maxWord at h
  exact BitVec.toInt_ofInt_eq_self (by decide) (by omega) (by omega)

/-- Bits of 63 places make a word, with either sign. -/
theorem natBitwise_isWord (bit : Bool → Bool → Bool) {m n : Nat} (hm : m < 2 ^ 63)
    (hn : n < 2 ^ 63) : IsWord (Int.natBitwise bit m n) := by
  unfold Int.natBitwise IsWord minWord maxWord
  cases bit false false with
  | true =>
    have hlt := Nat.bitwise_lt_two_pow (f := fun x y => !bit x y) hm hn
    simp only [cond_true]
    omega
  | false =>
    have hlt := Nat.bitwise_lt_two_pow (f := bit) hm hn
    simp only [cond_false]
    omega

/-- A bitwise operation on words gives a word. -/
theorem intBitwise_isWord (bit : Bool → Bool → Bool) {x y : Int} (hx : IsWord x) (hy : IsWord y) :
    IsWord (Int.bitwise bit x y) := by
  unfold IsWord minWord maxWord at hx hy
  -- The places of a negative number are those of the natural number that it is the complement of.
  cases x with
  | ofNat m =>
    have hm : m < 2 ^ 63 := by
      rw [Int.ofNat_eq_natCast] at hx
      omega
    cases y with
    | ofNat n =>
      rw [Int.ofNat_eq_natCast] at hy
      exact natBitwise_isWord bit hm (by omega)
    | negSucc n => exact natBitwise_isWord (fun s t => bit s (!t)) hm (by omega)
  | negSucc m =>
    have hm : m < 2 ^ 63 := by omega
    cases y with
    | ofNat n =>
      rw [Int.ofNat_eq_natCast] at hy
      exact natBitwise_isWord (fun s t => bit (!s) t) hm (by omega)
    | negSucc n => exact natBitwise_isWord (fun s t => bit (!s) (!t)) hm (by omega)

/-- An operation that works bit by bit on patterns works so on the two's complement of words. -/
theorem bitwise_eq_intBitwise {op : BitVec 64 → BitVec 64 → BitVec 64} {bit : Bool → Bool → Bool}
    (hop : ∀ first second position,
      (op first second).getLsbD position = bit (first.getLsbD position) (second.getLsbD position))
    {x y : Int} (hx : IsWord x) (hy : IsWord y) :
    bitwise op x y = Int.bitwise bit x y ∧ IsWord (bitwise op x y) := by
  have hword := intBitwise_isWord bit hx hy
  have hpattern : op (BitVec.ofInt 64 x) (BitVec.ofInt 64 y) =
      BitVec.ofInt 64 (Int.bitwise bit x y) := by
    refine BitVec.eq_of_getLsbD_eq fun position hposition => ?_
    rw [hop, getLsbD_ofInt x hposition, getLsbD_ofInt y hposition, getLsbD_ofInt _ hposition,
      Int.testBit_bitwise]
  have hvalue : bitwise op x y = Int.bitwise bit x y := by
    rw [bitwise, hpattern, toInt_ofInt_of_isWord hword]
  exact ⟨hvalue, hvalue ▸ hword⟩

/-! ## Operators -/

/-- The value of a prefix operator on integers. The complement is taken within the bytes that the
operand states. -/
def UnaryOp.exactValue (op : UnaryOp) (width : Nat) (x : Int) : Int :=
  match op with
  | negate => -x
  | plus => x
  | complement => if width < 8 then 256 ^ width - 1 - x else -x - 1
  | lowByte => x % 256
  | highByte => x / 256 % 256
  | logicalNot => if x = 0 then 1 else 0

/-- The value of a binary operator on integers, where it has one. -/
def BinaryOp.exactValue? (op : BinaryOp) (x y : Int) : Option Int :=
  match op with
  | add => some (x + y)
  | sub => some (x - y)
  | mul => some (x * y)
  | div => if y = 0 then none else some (x.fdiv y)
  | pow => if y < 0 then none else some (x ^ y.toNat)
  | mod => if y = 0 then none else some (x.fmod y)
  | bitAnd => some (x.land y)
  | bitXor => some (x.xor y)
  | bitOr => some (x.lor y)
  | shiftLeft => if y < 0 then none else some (x * 2 ^ y.toNat)
  | shiftRight => if y < 0 then none else some (x / 2 ^ y.toNat)
  | equal => some (if x = y then 1 else 0)
  | notEqual => some (if x ≠ y then 1 else 0)
  | less => some (if x < y then 1 else 0)
  | greater => some (if x > y then 1 else 0)
  | lessEqual => some (if x ≤ y then 1 else 0)
  | greaterEqual => some (if x ≥ y then 1 else 0)
  | logicalAnd => some (if x ≠ 0 ∧ y ≠ 0 then 1 else 0)
  | logicalOr => some (if x ≠ 0 ∨ y ≠ 0 then 1 else 0)

theorem fieldSpan_eq_256_pow (count : Nat) : fieldSpan count = 256 ^ count := by
  induction count with
  | zero => rfl
  | succ count ih => rw [fieldSpan, ih, Int.pow_succ, Int.mul_comm]

theorem checkedWord_eq_ok {value result : Int} (h : checkedWord value = .ok result) :
    result = value ∧ IsWord result := by
  obtain ⟨hrange, hresult⟩ := demand_eq_ok.mp h
  cases hresult
  exact ⟨rfl, hrange⟩

theorem checkedWord_of_isWord {value : Int} (h : IsWord value) : checkedWord value = .ok value :=
  if_pos h

theorem checkedWord_of_not_isWord {value : Int} (h : ¬IsWord value) :
    checkedWord value = .error .overflow :=
  if_neg h

/-- A truth value is a word. -/
theorem truthWord_isWord (b : Bool) : IsWord (truthWord b) := by
  cases b <;> decide

namespace UnaryOp

/-- The exact complement within less than eight bytes. -/
theorem exactValue_complement_of_short {width : Nat} (h : width < 8) (x : Int) :
    complement.exactValue width x = fieldSpan width - 1 - x :=
  (if_pos h).trans (by rw [fieldSpan_eq_256_pow])

/-- A complement that does not trap is exact, and a word. -/
theorem complement_exact {n : Number} {value : Int} (hn : IsWord n.value)
    (h : n.complement = .ok value) :
    value = complement.exactValue n.width n.value ∧ IsWord value := by
  by_cases hwidth : n.width < 8
  · obtain ⟨hword, rfl⟩ := Number.complement_eq_ok_of_short hwidth h
    exact ⟨(exactValue_complement_of_short hwidth _).symm, hword⟩
  · cases (Number.complement_of_long hwidth).symm.trans h
    refine ⟨(if_neg hwidth).symm, ?_⟩
    unfold IsWord minWord maxWord at *
    omega

/-- A complement of a word traps exactly where its exact value is beyond the greatest word. -/
theorem complement_eq_trap_iff {n : Number} (hn : IsWord n.value) :
    n.complement = .error .trap ↔ maxWord < complement.exactValue n.width n.value := by
  by_cases hwidth : n.width < 8
  · rw [Number.complement_of_short hwidth, exactValue_complement_of_short hwidth]
    have hspan := fieldSpan_pos n.width
    by_cases hword : IsWord (fieldSpan n.width - 1 - n.value)
    · rw [if_pos hword]
      refine ⟨nofun, fun hbeyond => ?_⟩
      exact absurd hword.2 (Int.not_le.mpr hbeyond)
    · rw [if_neg hword]
      refine ⟨fun _ => ?_, fun _ => rfl⟩
      unfold IsWord minWord maxWord at *
      omega
  · have hexact : complement.exactValue n.width n.value = -n.value - 1 := if_neg hwidth
    rw [Number.complement_of_long hwidth, hexact]
    refine ⟨nofun, fun hbeyond => ?_⟩
    unfold IsWord minWord maxWord at *
    omega

/-- The sign of 128 times the greatest number of seven bytes is too far below zero. -/
example : (Number.ofHex (-(128 * 0xFFFFFFFFFFFFFF)) 7).complement = .error .trap := by decide

/-- A prefix operator on a word that has a value has the exact one, and it is a word. -/
theorem apply_exact {op : UnaryOp} {n result : Number} (hn : IsWord n.value)
    (h : op.apply n = .ok result) :
    result.value = op.exactValue n.width n.value ∧ IsWord result.value := by
  cases op with
  | negate =>
    obtain ⟨value, hvalue, hresult⟩ := bind_eq_ok.mp h
    obtain ⟨rfl, hword⟩ := checkedWord_eq_ok hvalue
    cases hresult
    exact ⟨rfl, hword⟩
  | plus =>
    cases h
    exact ⟨rfl, hn⟩
  | complement =>
    obtain ⟨value, hvalue, hresult⟩ := bind_eq_ok.mp h
    cases hresult
    exact complement_exact hn hvalue
  | lowByte =>
    cases h
    refine ⟨rfl, ?_⟩
    unfold IsWord minWord maxWord
    dsimp only
    omega
  | highByte =>
    cases h
    refine ⟨rfl, ?_⟩
    unfold IsWord minWord maxWord
    dsimp only
    omega
  | logicalNot =>
    cases h
    refine ⟨?_, truthWord_isWord _⟩
    by_cases hzero : n.value = 0 <;> simp [truthWord, exactValue, Number.isTrue, hzero]

end UnaryOp

namespace BinaryOp

variable {a b : Number} {value : Int}

/-- A quotient that is a word is exact. -/
theorem div_exact (h : a.div b = .ok value) :
    div.exactValue? a.value b.value = some value ∧ IsWord value := by
  unfold Number.div at h
  split at h
  case isTrue => cases h
  case isFalse hzero =>
    obtain ⟨rfl, hword⟩ := checkedWord_eq_ok h
    exact ⟨if_neg hzero, hword⟩

/-- A remainder is exact, and between zero and the divisor. -/
theorem rem_exact (hb : IsWord b.value) (h : a.rem b = .ok value) :
    mod.exactValue? a.value b.value = some value ∧ IsWord value := by
  obtain ⟨hzero, rfl⟩ := rem_eq_ok h
  refine ⟨if_neg hzero, ?_⟩
  unfold IsWord minWord maxWord at *
  rcases Int.lt_or_gt_of_ne hzero with hneg | hpos
  · have habove := Int.fmod_nonneg_of_pos (-a.value) (Int.neg_pos_of_neg hneg)
    have hbelow := Int.fmod_lt_of_pos (-a.value) (Int.neg_pos_of_neg hneg)
    rw [Int.neg_fmod_neg] at habove hbelow
    omega
  · have habove := Int.fmod_nonneg_of_pos a.value hpos
    have hbelow := Int.fmod_lt_of_pos a.value hpos
    omega

/-- The powers of minus one, zero and one. -/
theorem pow_of_natAbs_le_one {x : Int} (hx : x.natAbs ≤ 1) {exponent : Nat} (hpos : exponent ≠ 0) :
    x ^ exponent = if exponent % 2 = 0 then x * x else x := by
  obtain rfl | rfl | rfl : x = -1 ∨ x = 0 ∨ x = 1 := by omega
  · rcases Nat.even_or_odd exponent with heven | hodd
    · rw [heven.neg_one_pow, if_pos (Nat.even_iff.mp heven)]
      rfl
    · rw [hodd.neg_one_pow, if_neg (by have := Nat.odd_iff.mp hodd; omega)]
  · rw [Int.zero_pow hpos]
    split <;> rfl
  · rw [Int.one_pow]
    split <;> rfl

/-- A power is checked as a whole. -/
theorem pow_eq_checkedWord {exponent : Nat} (h : b.placeCount? = some exponent) :
    a.pow b = checkedWord (a.value ^ exponent) := by
  unfold Number.pow
  rw [h]
  split
  case h_1 hnone => cases hnone
  case h_2 hzero =>
    cases hzero
    rw [Int.pow_zero]
    rfl
  case h_3 found hpos hfound =>
    cases hfound
    have hne : exponent ≠ 0 := fun hzero => hpos (hzero ▸ rfl)
    split
    case isTrue hunit =>
      rw [← pow_of_natAbs_le_one hunit hne]
      have hpower : (a.value ^ exponent).natAbs ≤ 1 := by
        rw [Int.natAbs_pow]
        exact (Nat.pow_le_one_iff hne).mpr hunit
      refine (checkedWord_of_isWord ?_).symm
      unfold IsWord minWord maxWord
      omega
    case isFalse hunit =>
      split
      case isTrue => rfl
      case isFalse hlong =>
        -- From two on, a base needs more than 64 bits for its 64th power.
        have hpower : 2 ^ 64 ≤ (a.value ^ exponent).natAbs := by
          rw [Int.natAbs_pow]
          calc 2 ^ 64 ≤ 2 ^ exponent := Nat.pow_le_pow_right (by decide) (by omega)
            _ ≤ a.value.natAbs ^ exponent := Nat.pow_le_pow_left (by omega) exponent
        refine (checkedWord_of_not_isWord ?_).symm
        unfold IsWord minWord maxWord
        omega

/-- A power that is a word is exact. -/
theorem pow_exact (h : a.pow b = .ok value) :
    pow.exactValue? a.value b.value = some value ∧ IsWord value := by
  cases hcount : b.placeCount? with
  | none =>
    unfold Number.pow at h
    rw [hcount] at h
    cases h
  | some exponent =>
    obtain ⟨rfl, hword⟩ := checkedWord_eq_ok ((pow_eq_checkedWord hcount).symm.trans h)
    have hvalue := placeCount?_eq_some hcount
    refine ⟨?_, hword⟩
    rw [exactValue?, if_neg (by omega), hvalue, Int.toNat_natCast]

/-- A left shift is a product with a power of two, as long as that is a word. -/
theorem shiftLeft_exact (h : a.shiftLeft b = .ok value) :
    shiftLeft.exactValue? a.value b.value = some value ∧ IsWord value := by
  obtain ⟨amount, hamount, hvalue⟩ := shiftLeft_eq_ok h
  refine ⟨?_, ?_⟩
  · rw [exactValue?, if_neg (by omega), hamount, Int.toNat_natCast, hvalue]
  · unfold Number.shiftLeft at h
    split at h
    case h_1 => cases h
    case h_2 =>
      split at h
      case isTrue => exact (checkedWord_eq_ok h).2
      case isFalse =>
        split at h
        case isTrue =>
          cases h
          decide
        case isFalse => cases h

/-- A right shift of a word is a quotient by a power of two, however far it is. -/
theorem shiftRight_exact (ha : IsWord a.value) (h : a.shiftRight b = .ok value) :
    shiftRight.exactValue? a.value b.value = some value ∧ IsWord value := by
  obtain ⟨amount, hamount, hvalue⟩ := shiftRight_eq_ok h
  have hquotient : value = a.value / 2 ^ amount := by
    rcases hvalue with ⟨-, rfl⟩ | ⟨hlong, rfl⟩
    · rfl
    · -- A word leaves only its sign when it is divided by more than it can be.
      have hpower : (2 : Int) ^ 64 ≤ 2 ^ amount := pow_le_pow_right₀ (by decide) hlong
      unfold IsWord minWord maxWord at ha
      split
      · exact (Int.ediv_eq_neg_one_of_neg_of_le (by omega) (by omega)).symm
      · exact (Int.ediv_eq_zero_of_lt (by omega) (by omega)).symm
  have hexact : shiftRight.exactValue? a.value b.value = some (a.value / 2 ^ amount) := by
    rw [exactValue?, if_neg (by omega), hamount, Int.toNat_natCast]
  subst hquotient
  refine ⟨hexact, ?_⟩
  have hpower : (1 : Int) ≤ 2 ^ amount := one_le_pow₀ (by decide)
  unfold IsWord minWord maxWord at *
  constructor
  · exact (Int.le_ediv_iff_mul_le (by omega)).mpr (by nlinarith)
  · exact Int.ediv_le_of_le_mul (by omega) (by nlinarith)

/-- A binary operator on words that has a value has the exact one, and it is a word. -/
theorem applyValue_exact {op : BinaryOp} (ha : IsWord a.value) (hb : IsWord b.value)
    (h : op.applyValue a b = .ok value) :
    op.exactValue? a.value b.value = some value ∧ IsWord value := by
  cases op with
  | add | sub | mul =>
    obtain ⟨rfl, hword⟩ := checkedWord_eq_ok h
    exact ⟨rfl, hword⟩
  | div => exact div_exact h
  | mod => exact rem_exact hb h
  | pow => exact pow_exact h
  | shiftLeft => exact shiftLeft_exact h
  | shiftRight => exact shiftRight_exact ha h
  | bitAnd =>
    cases h
    obtain ⟨hvalue, hword⟩ := bitwise_eq_intBitwise (fun _ _ _ => BitVec.getLsbD_and) ha hb
    exact ⟨congrArg some (hvalue.trans (congrFun₂ Int.bitwise_and _ _)).symm, hword⟩
  | bitXor =>
    cases h
    obtain ⟨hvalue, hword⟩ := bitwise_eq_intBitwise (fun _ _ _ => BitVec.getLsbD_xor) ha hb
    exact ⟨congrArg some (hvalue.trans (congrFun₂ Int.bitwise_xor _ _)).symm, hword⟩
  | bitOr =>
    cases h
    obtain ⟨hvalue, hword⟩ := bitwise_eq_intBitwise (fun _ _ _ => BitVec.getLsbD_or) ha hb
    exact ⟨congrArg some (hvalue.trans (congrFun₂ Int.bitwise_or _ _)).symm, hword⟩
  | equal | notEqual | less | greater | lessEqual | greaterEqual =>
    cases h
    exact ⟨congrArg some (by simp [truthWord]), truthWord_isWord _⟩
  | logicalAnd | logicalOr =>
    cases h
    exact ⟨congrArg some (by simp [truthWord, Number.isTrue]), truthWord_isWord _⟩

end BinaryOp

end Asm65816
