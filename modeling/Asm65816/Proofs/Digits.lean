import Asm65816.Text.Digits
import Mathlib.Tactic.IntervalCases

/-!
# Digits of numbers

The digits of a number have its value, with or without zeros in front, and there are as few of them
as the number allows.
-/

namespace Asm65816

variable {base : Nat}

/-- A digit has its value, in upper case too. -/
theorem digitValue?_digitChar (hbase : base ≤ 16) {digit : Nat} (h : digit < base) :
    digitValue? base (Nat.digitChar digit).toUpper = some digit := by
  have hhex : digit < 16 := by omega
  refine Eq.trans (b := if digit < base then some digit else none) ?_ (if_pos h)
  clear h
  interval_cases digit <;> rfl

/-- One more digit counts what stands before it once more for each unit of the base. -/
theorem positionalValue_append_digit (digits : List Char) (c : Char) :
    positionalValue base (digits ++ [c]) =
      positionalValue base digits * base + (digitValue? base c).getD 0 := by
  rw [positionalValue, List.foldl_append]
  rfl

/-- The numeral of a number of several digits is that of a quotient and one more digit. -/
theorem digitsIn_of_le (hbase : 1 < base) {n : Nat} (h : base ≤ n) :
    digitsIn base n = digitsIn base (n / base) ++ [(Nat.digitChar (n % base)).toUpper] := by
  rw [digitsIn, Nat.toDigits_of_base_le hbase h, List.map_append]
  rfl

theorem digitsIn_of_lt {n : Nat} (h : n < base) :
    digitsIn base n = [(Nat.digitChar n).toUpper] := by
  rw [digitsIn, Nat.toDigits_of_lt_base h]
  rfl

/-- The numeral of a number is read back. -/
theorem positionalValue_digitsIn (hlow : 1 < base) (hhigh : base ≤ 16) (n : Nat) :
    positionalValue base (digitsIn base n) = n := by
  induction n using Nat.strongRecOn with
  | ind n ih =>
    by_cases hn : n < base
    · rw [digitsIn_of_lt hn, ← List.nil_append [_], positionalValue_append_digit,
        digitValue?_digitChar hhigh hn]
      change 0 * base + n = n
      rw [Nat.zero_mul, Nat.zero_add]
    · have hle := Nat.le_of_not_lt hn
      have hmod := Nat.mod_lt n (show 0 < base by omega)
      rw [digitsIn_of_le hlow hle, positionalValue_append_digit, digitValue?_digitChar hhigh hmod,
        ih _ (Nat.div_lt_self (by omega) hlow), Option.getD_some]
      exact Nat.div_add_mod' n base

/-- A numeral has digits of its base only. -/
theorem isDigitIn_of_mem_digitsIn (hlow : 1 < base) (hhigh : base ≤ 16) {n : Nat} {c : Char}
    (h : c ∈ digitsIn base n) : isDigitIn base c = true := by
  induction n using Nat.strongRecOn with
  | ind n ih =>
    by_cases hn : n < base
    · rw [digitsIn_of_lt hn, List.mem_singleton] at h
      rw [h, isDigitIn, digitValue?_digitChar hhigh hn]
      rfl
    · have hmod := Nat.mod_lt n (show 0 < base by omega)
      rw [digitsIn_of_le hlow (Nat.le_of_not_lt hn), List.mem_append, List.mem_singleton] at h
      rcases h with hfront | rfl
      · exact ih _ (Nat.div_lt_self (by omega) hlow) hfront
      · rw [isDigitIn, digitValue?_digitChar hhigh hmod]
        rfl

theorem digitValue?_zero (hbase : 0 < base) : digitValue? base '0' = some 0 := if_pos hbase

theorem digitsIn_length_pos (n : Nat) : 0 < (digitsIn base n).length := by
  rw [digitsIn, List.length_map]
  exact Nat.length_toDigits_pos

/-- A number below a power of the base has no more digits than the exponent. -/
theorem digitsIn_length_le (hbase : 1 < base) {n count : Nat} (hcount : 0 < count)
    (h : n < base ^ count) : (digitsIn base n).length ≤ count := by
  rw [digitsIn, List.length_map]
  exact (Nat.length_toDigits_le_iff hbase hcount).mpr h

/-- Zeros in front add nothing. -/
theorem positionalValue_zeros (hbase : 0 < base) (count : Nat) (digits : List Char) :
    positionalValue base (List.replicate count '0' ++ digits) = positionalValue base digits := by
  induction count with
  | zero => rfl
  | succ count ih =>
    rw [List.replicate_succ, List.cons_append, positionalValue, List.foldl_cons,
      digitValue?_zero hbase, Nat.zero_mul]
    exact ih

theorem paddedDigits_toList (base width n : Nat) :
    (paddedDigits base width n).toList =
      List.replicate (width - (digitsIn base n).length) '0' ++ digitsIn base n :=
  String.toList_ofList

/-- A padded numeral is read back. -/
theorem positionalValue_paddedDigits (hlow : 1 < base) (hhigh : base ≤ 16) (width n : Nat) :
    positionalValue base (paddedDigits base width n).toList = n := by
  rw [paddedDigits_toList, positionalValue_zeros (by omega), positionalValue_digitsIn hlow hhigh]

/-- A padded numeral has digits of its base only. -/
theorem isDigitIn_of_mem_paddedDigits (hlow : 1 < base) (hhigh : base ≤ 16) {width n : Nat}
    {c : Char} (h : c ∈ (paddedDigits base width n).toList) : isDigitIn base c = true := by
  rw [paddedDigits_toList, List.mem_append] at h
  rcases h with hzero | hdigit
  · rw [List.eq_of_mem_replicate hzero, isDigitIn, digitValue?_zero (Nat.zero_lt_of_lt hlow)]
    rfl
  · exact isDigitIn_of_mem_digitsIn hlow hhigh hdigit

theorem paddedDigits_ne_nil (base width n : Nat) : (paddedDigits base width n).toList ≠ [] := by
  have hpos : 0 < (digitsIn base n).length := digitsIn_length_pos n
  intro hnil
  rw [paddedDigits_toList, List.append_eq_nil_iff] at hnil
  rw [hnil.2] at hpos
  cases hpos

/-- A number that the width has room for takes as many digits as that. -/
theorem paddedDigits_length (hbase : 1 < base) {width n : Nat} (hwidth : 0 < width)
    (h : n < base ^ width) : (paddedDigits base width n).toList.length = width := by
  have hle := digitsIn_length_le hbase hwidth h
  rw [paddedDigits_toList, List.length_append, List.length_replicate]
  omega

end Asm65816
