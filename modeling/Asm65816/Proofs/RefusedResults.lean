import Asm65816.Proofs.CheckedArithmetic

/-!
# Refused results

A checked operation returns its exact result whenever that is a word, but for the operands that it
misses: the remainder of the least word by minus one, whose quotient is no word, powers and right
shifts by counts of more than 32 bits, and the left shifts of zero by such counts and of minus one
to the least word. On these it reports an overflow, or an exponent that is negative.
-/

namespace Asm65816

/-- A count of places that has 32 bits. -/
theorem placeCount?_of_lt {b : Number} {count : Nat} (hvalue : b.value = count)
    (hcount : count < 2 ^ 32) : b.placeCount? = some count := by
  rw [Number.placeCount?, hvalue, if_pos (by omega), Int.toNat_natCast]

theorem placeCount?_of_ge {b : Number} {count : Nat} (hvalue : b.value = count)
    (hcount : 2 ^ 32 ≤ count) : b.placeCount? = none :=
  if_neg (by omega)

/-- Shifted by 63 places or more, only zero stays a word, and minus one by 63 places. -/
theorem isWord_shifted {x : Int} {amount : Nat} (hlong : 63 ≤ amount) :
    IsWord (x * 2 ^ amount) ↔ x = 0 ∨ x = -1 ∧ amount = 63 := by
  constructor
  · intro hword
    have hpower : (2 : Int) ^ 63 ≤ 2 ^ amount := pow_le_pow_right₀ (by decide) hlong
    unfold IsWord minWord maxWord at hword
    have hpositive : x ≤ 0 := by nlinarith
    have hnegative : -1 ≤ x := by nlinarith
    obtain rfl | rfl : x = 0 ∨ x = -1 := by omega
    · exact .inl rfl
    · refine .inr ⟨rfl, ?_⟩
      by_contra hne
      have hlonger : (2 : Int) ^ 64 ≤ 2 ^ amount := pow_le_pow_right₀ (by decide) (by omega)
      omega
  · rintro (rfl | ⟨rfl, rfl⟩)
    · rw [Int.zero_mul]
      decide
    · decide

namespace CheckedOp

/-- The operands at which an operation fails although its result is a word, or blames the sign of
an exponent that has none. -/
def Misses (op : CheckedOp) (x y : Int) : Prop :=
  match op with
  | add | sub | mul | div => False
  | rem => x = minWord ∧ y = -1
  | pow => 2 ^ 32 ≤ y
  | shiftLeft => x = 0 ∧ 2 ^ 32 ≤ y ∨ x = -1 ∧ y = 63
  | shiftRight => 2 ^ 32 ≤ y

instance (op : CheckedOp) (x y : Int) : Decidable (op.Misses x y) :=
  match op with
  | add | sub | mul | div => inferInstanceAs (Decidable False)
  | rem => inferInstanceAs (Decidable (_ ∧ _))
  | pow | shiftRight => inferInstanceAs (Decidable (_ ≤ _))
  | shiftLeft => inferInstanceAs (Decidable (_ ∨ _))

/-- The fault of an operation on operands that it misses. -/
def missFault : CheckedOp → EvalError
  | pow => .negativeExponent
  | _ => .overflow

variable {a b : Number} {op : CheckedOp} {result : Int}

/-- An operation that returns something returns its exact result, which is a word. -/
theorem eq_checkedWord_of_ok (ha : IsWord a.value) (hb : IsWord b.value) {value : Int}
    (hexact : op.IsExact a.value b.value result) (h : op.apply a b = .ok value) :
    op.apply a b = checkedWord result := by
  obtain ⟨hvalue, hword⟩ := exact_of_ok ha hb h
  rw [← exactValue?_operator] at hexact hvalue
  obtain rfl := Option.some.inj (hexact.symm.trans hvalue)
  rw [h, checkedWord_of_isWord hword]

theorem rem_eq_checkedWord (ha : IsWord a.value) (hb : IsWord b.value)
    (hexact : rem.IsExact a.value b.value result) :
    (¬rem.Misses a.value b.value → a.rem b = checkedWord result) ∧
      (rem.Misses a.value b.value → a.rem b = .error .overflow) := by
  have hdivides := hexact.1
  unfold Misses
  constructor
  · intro hmissed
    have hok : a.rem b = .ok (a.value.fmod b.value) := by
      rw [Number.rem, if_neg hdivides, if_neg hmissed]
    exact eq_checkedWord_of_ok ha hb hexact hok
  · intro hmissed
    rw [Number.rem, if_neg hdivides, if_pos hmissed]

theorem pow_eq_checkedWord (hexact : pow.IsExact a.value b.value result) :
    (¬pow.Misses a.value b.value → a.pow b = checkedWord result) ∧
      (pow.Misses a.value b.value → a.pow b = .error .negativeExponent) := by
  obtain ⟨exponent, hvalue, rfl⟩ := hexact
  unfold Misses
  constructor
  · intro hmissed
    exact BinaryOp.pow_eq_checkedWord (placeCount?_of_lt hvalue (by omega))
  · intro hmissed
    rw [Number.pow, placeCount?_of_ge hvalue (by omega)]

theorem shiftLeft_eq_checkedWord (hexact : shiftLeft.IsExact a.value b.value result) :
    (¬shiftLeft.Misses a.value b.value → a.shiftLeft b = checkedWord result) ∧
      (shiftLeft.Misses a.value b.value → a.shiftLeft b = .error .overflow) := by
  obtain ⟨amount, hvalue, rfl⟩ := hexact
  unfold Misses
  by_cases hcount : amount < 2 ^ 32
  · unfold Number.shiftLeft
    rw [placeCount?_of_lt hvalue hcount]
    dsimp only
    by_cases hshort : amount < 63
    · rw [if_pos hshort]
      exact ⟨fun _ => rfl, fun _ => by omega⟩
    · rw [if_neg hshort]
      by_cases hzero : a.value = 0
      · rw [if_pos hzero, hzero, Int.zero_mul]
        exact ⟨fun _ => rfl, fun _ => by omega⟩
      · rw [if_neg hzero]
        refine ⟨fun hmissed => (checkedWord_of_not_isWord ?_).symm, fun _ => rfl⟩
        rw [isWord_shifted (Nat.le_of_not_lt hshort)]
        omega
  · have hfails : a.shiftLeft b = .error .overflow := by
      rw [Number.shiftLeft, placeCount?_of_ge hvalue (Nat.le_of_not_lt hcount)]
    refine ⟨fun hmissed => ?_, fun _ => hfails⟩
    rw [hfails, checkedWord_of_not_isWord]
    rw [isWord_shifted (by omega)]
    omega

theorem shiftRight_eq_checkedWord (ha : IsWord a.value) (hb : IsWord b.value)
    (hexact : shiftRight.IsExact a.value b.value result) :
    (¬shiftRight.Misses a.value b.value → a.shiftRight b = checkedWord result) ∧
      (shiftRight.Misses a.value b.value → a.shiftRight b = .error .overflow) := by
  obtain ⟨amount, hvalue, -⟩ := id hexact
  unfold Misses
  constructor
  · intro hmissed
    have hplaces := placeCount?_of_lt hvalue (show amount < 2 ^ 32 by omega)
    have hok : ∃ value, a.shiftRight b = .ok value := by
      rw [Number.shiftRight, hplaces]
      dsimp only
      split
      · exact ⟨_, rfl⟩
      · exact ⟨_, rfl⟩
    obtain ⟨value, hok⟩ := hok
    exact eq_checkedWord_of_ok ha hb hexact hok
  · intro hmissed
    rw [Number.shiftRight, placeCount?_of_ge hvalue (by omega)]

end CheckedOp

/-- Checked arithmetic fails only when it must, but for the operands that an operation misses. On
words with an exact result, any other operation returns the result, or reports an overflow where it
is no word. -/
theorem arithmetic_complete {a b : Number} (ha : IsWord a.value) (hb : IsWord b.value)
    {op : CheckedOp} {result : Int} (hexact : op.IsExact a.value b.value result) :
    (¬op.Misses a.value b.value → op.apply a b = checkedWord result) ∧
      (op.Misses a.value b.value → op.apply a b = .error op.missFault) := by
  cases op with
  | add | sub | mul =>
    obtain rfl := hexact
    exact ⟨fun _ => rfl, fun hmissed => hmissed.elim⟩
  | div =>
    obtain ⟨hzero, rfl⟩ := hexact
    refine ⟨fun _ => ?_, fun hmissed => hmissed.elim⟩
    rw [← fdiv_eq_floor]
    exact if_neg hzero
  | rem => exact CheckedOp.rem_eq_checkedWord ha hb hexact
  | pow => exact CheckedOp.pow_eq_checkedWord hexact
  | shiftLeft => exact CheckedOp.shiftLeft_eq_checkedWord hexact
  | shiftRight => exact CheckedOp.shiftRight_eq_checkedWord ha hb hexact

/-- The least word is shifted out to the right and leaves its sign. -/
theorem arithmetic_complete_shifted :
    CheckedOp.shiftRight.IsExact minWord 64 (-1) ∧
      (Number.ofInt minWord).shiftRight (.ofInt 64) = checkedWord (-1) := by
  have hexact : CheckedOp.shiftRight.IsExact minWord 64 (-1) :=
    ⟨64, rfl, (ediv_two_pow_eq_floor minWord 64).symm ▸ by decide⟩
  have hcomplete := arithmetic_complete (a := .ofInt minWord) (b := .ofInt 64)
    (by decide) (by decide) hexact
  exact ⟨hexact, hcomplete.1 (by decide)⟩

/-- One to the power of 2 ^ 32 is one, and fails as if the exponent were negative. -/
theorem large_exponent_taken_for_negative :
    ¬∀ (a b : Number) (op : CheckedOp) (result : Int), IsWord a.value → IsWord b.value →
      op.IsExact a.value b.value result →
        (IsWord result → op.apply a b = .ok result) ∧
        (op.apply a b = .error .overflow → ¬IsWord result) ∧
        (op.apply a b = .error .negativeExponent → b.value < 0) := by
  intro h
  have hexact : CheckedOp.pow.IsExact 1 (2 ^ 32) 1 := ⟨2 ^ 32, by decide, (Int.one_pow).symm⟩
  have hclaimed := h (.ofInt 1) (.ofInt (2 ^ 32)) .pow 1 (by decide) (by decide) hexact
  have hfails : (Number.ofInt 1).pow (.ofInt (2 ^ 32)) = .error .negativeExponent := by decide
  cases hfails.symm.trans (hclaimed.1 (by decide))

end Asm65816
