import Asm65816.Proofs.ExactOperators
import Mathlib.Data.Rat.Floor

/-!
# Checked arithmetic

Sums, products, quotients, powers and shifts of words are computed in steps of 64 bits: the machine
truncates quotients, takes remainders with the sign of the dividend and traps where the result of a
step is no word. No step traps on any operands unless the operation asks for it, and what is
returned is the exact result, with quotients rounded down.
-/

namespace Asm65816

/-- The operations that are checked for results beyond the words. -/
inductive CheckedOp where
  | add
  | sub
  | mul
  | div
  | rem
  | pow
  | shiftLeft
  | shiftRight
  deriving DecidableEq, Repr

namespace CheckedOp

/-- The operation on two numbers. -/
def apply (op : CheckedOp) (a b : Number) : Except EvalError Int :=
  match op with
  | add => a.add b
  | sub => a.sub b
  | mul => a.mul b
  | div => a.div b
  | rem => a.rem b
  | pow => a.pow b
  | shiftLeft => a.shiftLeft b
  | shiftRight => a.shiftRight b

/-- The exact result of an operation. There is none for a divisor of zero, a negative exponent and
a shift by less than no places. -/
def IsExact (op : CheckedOp) (x y result : Int) : Prop :=
  match op with
  | add => result = x + y
  | sub => result = x - y
  | mul => result = x * y
  | div => y ≠ 0 ∧ result = ⌊(x : ℚ) / y⌋
  | rem => y ≠ 0 ∧ result = x - y * ⌊(x : ℚ) / y⌋
  | pow => ∃ exponent : Nat, y = exponent ∧ result = x ^ exponent
  | shiftLeft => ∃ amount : Nat, y = amount ∧ result = x * 2 ^ amount
  | shiftRight => ∃ amount : Nat, y = amount ∧ result = ⌊(x : ℚ) / 2 ^ amount⌋

/-- The operator of expressions that the operation evaluates. -/
def operator : CheckedOp → BinaryOp
  | add => .add
  | sub => .sub
  | mul => .mul
  | div => .div
  | rem => .mod
  | pow => .pow
  | shiftLeft => .shiftLeft
  | shiftRight => .shiftRight

theorem applyValue_operator (op : CheckedOp) (a b : Number) :
    op.operator.applyValue a b = op.apply a b := by
  cases op <;> rfl

end CheckedOp

/-! ## Rounding down -/

/-- Division that rounds down is the floor of the quotient. -/
theorem fdiv_eq_floor (x y : Int) : x.fdiv y = ⌊(x : ℚ) / y⌋ := by
  have hpositive (x : Int) (divisor : Nat) : x.fdiv divisor = ⌊(x : ℚ) / (divisor : Int)⌋ := by
    rw [Int.fdiv_eq_ediv_of_nonneg x (Int.natCast_nonneg divisor), Int.cast_natCast,
      Rat.floor_intCast_div_natCast]
  obtain ⟨divisor, rfl | rfl⟩ := y.eq_nat_or_neg
  · exact hpositive x divisor
  · rw [← Int.neg_neg x, Int.neg_fdiv_neg, hpositive, Int.cast_neg (-x),
      Int.cast_neg (divisor : Int), neg_div_neg_eq]

theorem ediv_two_pow_eq_floor (x : Int) (amount : Nat) :
    x / 2 ^ amount = ⌊(x : ℚ) / 2 ^ amount⌋ := by
  have hfloor := Rat.floor_intCast_div_natCast x (2 ^ amount)
  push_cast at hfloor
  exact hfloor.symm

/-- Where a remainder is left and the operands have different signs, a truncated quotient is one
more than the one that is rounded down. -/
theorem fdiv_fmod_of_truncated (x : Int) {y : Int} (hy : y ≠ 0) :
    x.fdiv y = (if x.tmod y ≠ 0 ∧ ¬(x < 0 ↔ y < 0) then x.tdiv y - 1 else x.tdiv y) ∧
      x.fmod y = (if x.tmod y ≠ 0 ∧ ¬(x < 0 ↔ y < 0) then x.tmod y + y else x.tmod y) := by
  by_cases hdvd : y ∣ x
  · have hzero := Int.tmod_eq_zero_of_dvd hdvd
    rw [Int.fdiv_eq_tdiv, Int.fmod_eq_tmod, if_pos hdvd, if_pos hdvd]
    omega
  · have hne : x.tmod y ≠ 0 := fun hzero => hdvd (Int.dvd_of_tmod_eq_zero hzero)
    rw [Int.fdiv_eq_tdiv, Int.fmod_eq_tmod, if_neg hdvd, if_neg hdvd]
    rcases Int.lt_or_gt_of_ne hy with hneg | hpos
    · rw [Int.sign_eq_neg_one_of_neg hneg]
      omega
    · rw [Int.sign_eq_one_of_pos hpos]
      omega

/-- A truncated remainder that is not zero has the sign of the dividend. -/
theorem tmod_neg_iff {x y : Int} (h : x.tmod y ≠ 0) : x.tmod y < 0 ↔ x < 0 := by
  constructor
  · intro hneg
    by_contra hx
    have hnonneg := Int.tmod_nonneg y (show 0 ≤ x by omega)
    omega
  · intro hx
    have hnonneg := Int.tmod_nonneg y (show 0 ≤ -x by omega)
    rw [Int.neg_tmod] at hnonneg
    omega

/-- A quotient is less than the dividend where a remainder is left. -/
theorem natAbs_tdiv_lt {x y : Int} (hy : y ≠ 0) (h : x.tmod y ≠ 0) :
    (x.tdiv y).natAbs < x.natAbs := by
  have hremainder : x.natAbs % y.natAbs ≠ 0 := by
    rw [← Int.natAbs_tmod]
    exact Int.natAbs_ne_zero.mpr h
  have hdivisor : 1 < y.natAbs := by
    have hone : y.natAbs ≠ 1 := fun hone => hremainder (by rw [hone, Nat.mod_one])
    omega
  have hdividend : 0 < x.natAbs := by
    refine Nat.pos_of_ne_zero fun hzero => hremainder ?_
    rw [hzero, Nat.zero_mod]
  rw [Int.natAbs_tdiv]
  exact Nat.div_lt_self hdividend hdivisor

/-- A remainder that goes with rounding down lies between zero and the divisor. -/
theorem fmod_range (x y : Int) :
    (0 < y → 0 ≤ x.fmod y ∧ x.fmod y < y) ∧ (y < 0 → y < x.fmod y ∧ x.fmod y ≤ 0) := by
  constructor
  · intro hpos
    exact ⟨Int.fmod_nonneg_of_pos x hpos, Int.fmod_lt_of_pos x hpos⟩
  · intro hneg
    have habove := Int.fmod_nonneg_of_pos (-x) (Int.neg_pos_of_neg hneg)
    have hbelow := Int.fmod_lt_of_pos (-x) (Int.neg_pos_of_neg hneg)
    rw [Int.neg_fmod_neg] at habove hbelow
    omega

/-- A remainder is less than the divisor. -/
theorem natAbs_tmod_lt (x : Int) {y : Int} (hy : y ≠ 0) : (x.tmod y).natAbs < y.natAbs := by
  rw [Int.natAbs_tmod]
  exact Nat.mod_lt _ (by omega)

/-! ## Steps of 64 bits -/

/-- The result of a step, which traps where the value is no word. -/
def wordStep (value : Int) : Option Int := if IsWord value then some value else none

/-- A truncated quotient of words. There is none by zero. -/
def quotientStep (x y : Int) : Option Int := if y = 0 then none else wordStep (x.tdiv y)

/-- The remainder of a truncated quotient. There is none where there is no quotient. -/
def remainderStep (x y : Int) : Option Int := (quotientStep x y).map fun _ => x.tmod y

/-- `value` as a word, wrapped around where it is beyond the range. -/
def wrappedWord (value : Int) : Int := (value - minWord) % 0x10000000000000000 + minWord

/-- A shift to the left by less than 64 places. Bits that leave the word are lost. -/
def leftStep (x : Int) (amount : Nat) : Option Int :=
  if amount < 64 then some (wrappedWord (x * 2 ^ amount)) else none

/-- A shift to the right by less than 64 places, which repeats the sign. -/
def rightStep (x : Int) (amount : Nat) : Option Int :=
  if amount < 64 then some (x / 2 ^ amount) else none

/-- The outcome of a step whose trap is asked for and reported. -/
def reported (step : Option Int) : Except EvalError Int :=
  step.elim (.error .overflow) .ok

namespace CheckedOp

/-- A checked operation in steps of 64 bits, or nothing where a step traps that is not asked for. -/
def steps (op : CheckedOp) (a b : Number) : Option (Except EvalError Int) :=
  let x := a.value
  let y := b.value
  match op with
  | add => some (reported (wordStep (x + y)))
  | sub => some (reported (wordStep (x - y)))
  | mul => some (reported (wordStep (x * y)))
  | div =>
    if y = 0 then some (.error .divisionByZero)
    else match quotientStep x y with
      | none => some (.error .overflow)
      | some quotient => do
        let remainder ← remainderStep x y
        if remainder ≠ 0 ∧ ¬(x < 0 ↔ y < 0) then return .ok (← wordStep (quotient - 1))
        else return .ok quotient
  | rem =>
    if y = 0 then some (.error .divisionByZero)
    else match remainderStep x y with
      | none => some (.error .overflow)
      | some remainder =>
        if remainder ≠ 0 ∧ ¬(remainder < 0 ↔ y < 0) then (wordStep (remainder + y)).map .ok
        else some (.ok remainder)
  | pow =>
    match b.placeCount? with
    | none => some (.error .negativeExponent)
    | some exponent => some (reported (wordStep (x ^ exponent)))
  | shiftLeft =>
    match b.placeCount? with
    | none => some (.error .overflow)
    | some amount =>
      if 63 ≤ amount then some (if x = 0 then .ok 0 else .error .overflow)
      else (leftStep 1 amount).map fun factor => reported (wordStep (x * factor))
  | shiftRight =>
    match b.placeCount? with
    | none => some (.error .overflow)
    | some amount =>
      if 64 ≤ amount then some (.ok (if x < 0 then -1 else 0))
      else (rightStep x amount).map .ok

end CheckedOp

/-! ## Operations by their exact results -/

theorem reported_wordStep (value : Int) : reported (wordStep value) = checkedWord value := by
  by_cases h : IsWord value
  · rw [wordStep, if_pos h]
    exact (if_pos h).symm
  · rw [wordStep, if_neg h]
    exact (if_neg h).symm

namespace CheckedOp

/-- What is exact for an operation is exact for its operator. -/
theorem exactValue?_operator (op : CheckedOp) (x y result : Int) :
    op.operator.exactValue? x y = some result ↔ op.IsExact x y result := by
  have hcount (f : Nat → Int) :
      (if y < 0 then none else some (f y.toNat)) = some result ↔
        ∃ count : Nat, y = count ∧ result = f count := by
    by_cases hneg : y < 0
    · rw [if_pos hneg]
      refine ⟨fun h => absurd h (by simp), ?_⟩
      rintro ⟨count, rfl, -⟩
      omega
    · obtain ⟨count, rfl⟩ := Int.eq_ofNat_of_zero_le (Int.not_lt.mp hneg)
      rw [if_neg hneg, Int.toNat_natCast, Option.some.injEq]
      constructor
      · intro h
        exact ⟨count, rfl, h.symm⟩
      · rintro ⟨other, hother, hresult⟩
        obtain rfl := Int.ofNat.inj hother
        exact hresult.symm
  have hdivisor (value : Int) :
      (if y = 0 then none else some value) = some result ↔ y ≠ 0 ∧ result = value := by
    by_cases hzero : y = 0
    · simp [hzero]
    · simp [hzero, eq_comm]
  cases op with
  | add | sub | mul =>
    refine Option.some_inj.trans ?_
    exact eq_comm
  | div =>
    refine (hdivisor _).trans ?_
    rw [fdiv_eq_floor]
    rfl
  | rem =>
    refine (hdivisor _).trans ?_
    rw [Int.fmod_def, fdiv_eq_floor]
    rfl
  | pow => exact hcount fun exponent => x ^ exponent
  | shiftLeft => exact hcount fun amount => x * 2 ^ amount
  | shiftRight =>
    refine (hcount fun amount => x / 2 ^ amount).trans ?_
    simp only [ediv_two_pow_eq_floor]
    rfl

variable {a b : Number} {op : CheckedOp} {result : Int}

/-- What is returned for words is exact and a word. -/
theorem exact_of_ok (ha : IsWord a.value) (hb : IsWord b.value) (h : op.apply a b = .ok result) :
    op.IsExact a.value b.value result ∧ IsWord result := by
  rw [← applyValue_operator] at h
  obtain ⟨hvalue, hword⟩ := BinaryOp.applyValue_exact ha hb h
  exact ⟨(op.exactValue?_operator _ _ _).mp hvalue, hword⟩

/-! ## No step traps -/

/-- A quotient of words that leaves a remainder stays a word when it is rounded down. -/
theorem wordStep_quotient {x y : Int} (hx : IsWord x) (hy : y ≠ 0) (h : x.tmod y ≠ 0) :
    wordStep (x.tdiv y - 1) = some (x.tdiv y - 1) := by
  have hless := natAbs_tdiv_lt hy h
  refine if_pos ?_
  unfold IsWord minWord maxWord at *
  omega

/-- The divisor added to a remainder of the other sign is a word. -/
theorem wordStep_remainder {x y : Int} (hy : IsWord y) (hzero : y ≠ 0)
    (h : ¬(x.tmod y < 0 ↔ y < 0)) : wordStep (x.tmod y + y) = some (x.tmod y + y) := by
  have hless := natAbs_tmod_lt x hzero
  refine if_pos ?_
  unfold IsWord minWord maxWord at *
  omega

/-- Only the least word has a quotient by a word that is none, the one by minus one. -/
theorem isWord_tdiv_iff {x y : Int} (hx : IsWord x) (hy : y ≠ 0) :
    IsWord (x.tdiv y) ↔ ¬(x = minWord ∧ y = -1) := by
  constructor
  · rintro hword ⟨rfl, rfl⟩
    exact absurd hword (by decide)
  · intro hne
    by_cases hunit : y.natAbs = 1
    · rcases Int.natAbs_eq_iff.mp hunit with rfl | rfl
      · exact (Int.tdiv_one x).symm ▸ hx
      · have hquotient : x.tdiv (-((1 : Nat) : Int)) = -x := by
          rw [Int.tdiv_neg]
          exact congrArg Neg.neg (Int.tdiv_one x)
        rw [hquotient]
        unfold IsWord minWord maxWord at *
        omega
    · have hhalf : (x.tdiv y).natAbs ≤ x.natAbs / 2 := by
        rw [Int.natAbs_tdiv]
        exact Nat.div_le_div_left (by omega) (by decide)
      unfold IsWord minWord maxWord at *
      omega

theorem steps_div (ha : IsWord a.value) : div.steps a b = some (a.div b) := by
  unfold steps Number.div
  dsimp only
  split
  case isTrue => rfl
  case isFalse hzero =>
    have hrounded := (fdiv_fmod_of_truncated a.value hzero).1
    rw [remainderStep, quotientStep, if_neg hzero]
    by_cases hquotient : IsWord (a.value.tdiv b.value)
    · have hstep : wordStep (a.value.tdiv b.value) = some (a.value.tdiv b.value) := if_pos hquotient
      simp only [hstep, Option.map_some, Option.bind_eq_bind, Option.bind_some]
      split
      case isTrue hcorrected =>
        have hless := wordStep_quotient ha hzero hcorrected.1
        rw [hrounded, if_pos hcorrected, hless, ← reported_wordStep, hless]
        rfl
      case isFalse hexact =>
        rw [hrounded, if_neg hexact, ← reported_wordStep, hstep]
        rfl
    · -- A quotient beyond the words leaves no remainder, and is not rounded.
      have hstep : wordStep (a.value.tdiv b.value) = none := if_neg hquotient
      have hexact : a.value.tmod b.value = 0 := by
        by_contra hremainder
        have hless := natAbs_tdiv_lt hzero hremainder
        unfold IsWord minWord maxWord at *
        omega
      rw [hrounded, if_neg (fun h => h.1 hexact), ← reported_wordStep, hstep]
      rfl

theorem steps_rem (ha : IsWord a.value) (hb : IsWord b.value) :
    rem.steps a b = some (a.rem b) := by
  unfold steps Number.rem
  dsimp only
  split
  case isTrue => rfl
  case isFalse hzero =>
    have hrounded := (fdiv_fmod_of_truncated a.value hzero).2
    rw [remainderStep, quotientStep, if_neg hzero]
    by_cases hquotient : IsWord (a.value.tdiv b.value)
    · have hstep : wordStep (a.value.tdiv b.value) = some (a.value.tdiv b.value) := if_pos hquotient
      rw [if_neg ((isWord_tdiv_iff ha hzero).mp hquotient), hstep, hrounded]
      dsimp only [Option.map_some]
      by_cases hremainder : a.value.tmod b.value = 0
      · rw [if_neg (fun h => h.1 hremainder), if_neg (fun h => h.1 hremainder)]
      · simp only [tmod_neg_iff hremainder]
        split
        case isTrue hcorrected =>
          rw [wordStep_remainder hb hzero (by rw [tmod_neg_iff hremainder]; exact hcorrected.2)]
          rfl
        case isFalse => rfl
    · have hstep : wordStep (a.value.tdiv b.value) = none := if_neg hquotient
      have hleast : a.value = minWord ∧ b.value = -1 := by
        by_contra hne
        exact hquotient ((isWord_tdiv_iff ha hzero).mpr hne)
      rw [if_pos hleast, hstep]
      rfl

/-- Nothing is wrapped around within the range. -/
theorem wrappedWord_of_isWord {value : Int} (h : IsWord value) : wrappedWord value = value := by
  unfold IsWord minWord maxWord at h
  unfold wrappedWord minWord
  omega

/-- The factor of a left shift is a power of two that is a word. -/
theorem leftStep_one {amount : Nat} (h : amount < 63) : leftStep 1 amount = some (2 ^ amount) := by
  have hlow : (0 : Int) ≤ 2 ^ amount := by positivity
  have hhigh : (2 : Int) ^ amount ≤ 2 ^ 62 := pow_le_pow_right₀ (by decide) (by omega)
  rw [leftStep, if_pos (by omega), Int.one_mul, wrappedWord_of_isWord]
  unfold IsWord minWord maxWord
  omega

theorem steps_shiftLeft (a b : Number) : shiftLeft.steps a b = some (a.shiftLeft b) := by
  unfold steps Number.shiftLeft
  cases b.placeCount? with
  | none => rfl
  | some amount =>
    dsimp only
    by_cases hlong : 63 ≤ amount
    · rw [if_pos hlong, if_neg (Nat.not_lt.mpr hlong)]
    · rw [if_neg hlong, if_pos (Nat.lt_of_not_le hlong), leftStep_one (by omega), Option.map_some,
        reported_wordStep]
      rfl

theorem steps_shiftRight (a b : Number) : shiftRight.steps a b = some (a.shiftRight b) := by
  unfold steps Number.shiftRight
  cases b.placeCount? with
  | none => rfl
  | some amount =>
    dsimp only
    by_cases hlong : 64 ≤ amount
    · rw [if_pos hlong, if_neg (Nat.not_lt.mpr hlong)]
    · have hshort := Nat.lt_of_not_le hlong
      rw [if_neg hlong, if_pos hshort, rightStep, if_pos hshort]
      rfl

theorem steps_pow (a b : Number) : pow.steps a b = some (a.pow b) := by
  unfold steps
  cases hcount : b.placeCount? with
  | none =>
    unfold Number.pow
    rw [hcount]
  | some exponent =>
    dsimp only
    rw [reported_wordStep, BinaryOp.pow_eq_checkedWord hcount]

/-- No operation on words traps, and its steps lead to what it returns. -/
theorem steps_eq (ha : IsWord a.value) (hb : IsWord b.value) :
    op.steps a b = some (op.apply a b) := by
  cases op with
  | add | sub | mul => exact congrArg some (reported_wordStep _)
  | div => exact steps_div ha
  | rem => exact steps_rem ha hb
  | pow => exact steps_pow a b
  | shiftLeft => exact steps_shiftLeft a b
  | shiftRight => exact steps_shiftRight a b

end CheckedOp

/-- Checked arithmetic returns exact results only. On words, none of its steps traps unless it is
asked for; a result that is returned is the exact one, with quotients rounded down and remainders
between zero and the divisor; and a divisor of zero is always reported. -/
theorem arithmetic_exact {a b : Number} (ha : IsWord a.value) (hb : IsWord b.value) :
    (∀ op : CheckedOp, op.steps a b = some (op.apply a b)) ∧
    (∀ (op : CheckedOp) (result : Int), op.apply a b = .ok result →
      op.IsExact a.value b.value result) ∧
    (∀ remainder, a.rem b = .ok remainder →
      (0 < b.value → 0 ≤ remainder ∧ remainder < b.value) ∧
      (b.value < 0 → b.value < remainder ∧ remainder ≤ 0)) ∧
    (∀ quotient remainder, a.div b = .ok quotient → a.rem b = .ok remainder →
      a.value = b.value * quotient + remainder) ∧
    (b.value = 0 → a.div b = .error .divisionByZero ∧ a.rem b = .error .divisionByZero) := by
  refine ⟨fun op => op.steps_eq ha hb, fun op result h => (op.exact_of_ok ha hb h).1, ?_, ?_, ?_⟩
  · intro remainder h
    obtain ⟨-, rfl⟩ := BinaryOp.rem_eq_ok h
    exact fmod_range a.value b.value
  · intro quotient remainder hdiv hrem
    obtain ⟨hzero, rfl⟩ := BinaryOp.rem_eq_ok hrem
    rw [Number.div, if_neg hzero] at hdiv
    obtain ⟨rfl, -⟩ := checkedWord_eq_ok hdiv
    exact (Int.mul_fdiv_add_fmod a.value b.value).symm
  · intro hzero
    exact ⟨if_pos hzero, if_pos hzero⟩

/-- The least word by three: the quotient is rounded down, and the remainder is one. -/
theorem arithmetic_exact_least :
    ∃ a b : Number, a.value = minWord ∧ b.value = 3 ∧
      a.div b = .ok (-3074457345618258603) ∧ a.rem b = .ok 1 ∧
      CheckedOp.div.steps a b = some (.ok (-3074457345618258603)) ∧
      minWord = 3 * -3074457345618258603 + 1 ∧
      CheckedOp.div.IsExact minWord 3 (-3074457345618258603) := by
  obtain ⟨hsteps, hexact, -, hwhole, -⟩ :=
    arithmetic_exact (a := .ofInt minWord) (b := .ofInt 3) (by decide) (by decide)
  have hdiv : (Number.ofInt minWord).div (.ofInt 3) = .ok (-3074457345618258603) := by decide
  have hrem : (Number.ofInt minWord).rem (.ofInt 3) = .ok 1 := by decide
  exact ⟨_, _, rfl, rfl, hdiv, hrem, (hsteps .div).trans (congrArg some hdiv),
    hwhole _ _ hdiv hrem, hexact .div _ hdiv⟩

end Asm65816
