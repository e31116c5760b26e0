import Asm65816.Proofs.ExactOperators
import Mathlib.Data.Nat.Size

/-!
# Shortest fields

The width of a value is that of the shortest field it can be read back from, as an unsigned number
when it is not negative and in two's complement otherwise. For a value that is not negative this is
the count of its bits, rounded up to whole bytes.
-/

namespace Asm65816

/-- A value is read back from a field of its low bytes: as an unsigned number when it is not
negative, in two's complement otherwise. -/
def ReadsBack (value : Int) (count : Nat) : Prop :=
  if 0 ≤ value then (Encoding.unsignedField (littleEndian value count) : Int) = value
  else Encoding.signedField (littleEndian value count) = value

instance (value : Int) (count : Nat) : Decidable (ReadsBack value count) :=
  inferInstanceAs (Decidable (if 0 ≤ value then _ = _ else _ = _))

variable {value : Int} {count : Nat}

/-- A word lies in a field of eight bytes. -/
theorem IsWord.inField (h : IsWord value) : InField value 8 := by
  unfold IsWord minWord maxWord at h
  have hspan : fieldSpan 8 = 0x10000000000000000 := rfl
  exact ⟨by omega, by omega⟩

/-- A word lies in a field of its width. -/
theorem IsWord.inField_requiredBytes (h : IsWord value) : InField value (requiredBytes value) := by
  rcases Nat.lt_or_eq_of_le (requiredBytes_le_eight value) with hshort | hlong
  · exact Asm65816.inField_requiredBytes hshort
  · exact hlong ▸ h.inField

/-- A value is read back from exactly those fields that hold it. -/
theorem readsBack_iff : ReadsBack value count ↔ InField value count := by
  constructor
  · intro hreads
    have hspan := fieldSpan_pos count
    have hlow := Int.emod_nonneg value (Int.ne_of_gt hspan)
    have hhigh := Int.emod_lt_of_pos value hspan
    unfold ReadsBack at hreads
    split at hreads
    case isTrue hvalue =>
      rw [unsignedField_littleEndian] at hreads
      exact .of_unsigned hvalue (by omega)
    case isFalse hvalue =>
      simp only [Encoding.signedField, littleEndian_length, unsignedField_littleEndian] at hreads
      split at hreads
      · omega
      · exact ⟨by omega, by omega⟩
  · intro hfield
    unfold ReadsBack
    split
    case isTrue hvalue => exact hfield.readBack.1 hvalue
    case isFalse hvalue => exact hfield.readBack.2 (Int.not_le.mp hvalue)

/-- A word is read back from the fields that have its width. -/
theorem readsBack_iff_requiredBytes_le (h : IsWord value) (hcount : 1 ≤ count) :
    ReadsBack value count ↔ requiredBytes value ≤ count := by
  rw [readsBack_iff]
  exact ⟨requiredBytes_le hcount, h.inField_requiredBytes.mono⟩

/-- Only zero is read back from no bytes at all. -/
theorem eq_zero_of_readsBack_zero (h : ReadsBack value 0) : value = 0 := by
  obtain ⟨hlow, hhigh⟩ := readsBack_iff.mp h
  rw [fieldSpan] at hlow hhigh
  omega

/-- The two's complement range of a field ends at half its span. -/
theorem fieldSpan_eq_two_mul (hcount : 1 ≤ count) : fieldSpan count = 2 * 2 ^ (8 * count - 1) := by
  rw [fieldSpan_eq_two_pow, ← pow_succ']
  congr 1
  omega

/-- A field of one byte less holds the value no more, unless there is but one byte. -/
theorem requiredBytes_eq_one_or (value : Int) :
    requiredBytes value = 1 ∨
      1 ≤ requiredBytes value - 1 ∧ ¬InField value (requiredBytes value - 1) := by
  have hpos := requiredBytes_pos value
  by_cases hone : requiredBytes value = 1
  · exact .inl hone
  · refine .inr ⟨by omega, fun hfield => ?_⟩
    have hle := requiredBytes_le (by omega) hfield
    omega

/-- The width of an unsigned word is a matter of powers of 256. -/
theorem unsigned_range (h : IsWord value) (hvalue : 0 ≤ value) :
    value < 256 ^ requiredBytes value ∧
      (requiredBytes value = 1 ∨ 256 ^ (requiredBytes value - 1) ≤ value) := by
  simp only [← fieldSpan_eq_256_pow]
  refine ⟨h.inField_requiredBytes.2, (requiredBytes_eq_one_or value).imp id fun hless => ?_⟩
  exact Int.not_lt.mp fun hhigh => hless.2 (.of_unsigned hvalue hhigh)

/-- The width of a negative word is a matter of its bits but for the sign. -/
theorem signed_range (h : IsWord value) (hvalue : value < 0) :
    -2 ^ (8 * requiredBytes value - 1) ≤ value ∧
      (requiredBytes value = 1 ∨ value < -2 ^ (8 * (requiredBytes value - 1) - 1)) := by
  constructor
  · have hlow := h.inField_requiredBytes.1
    rw [fieldSpan_eq_two_mul (requiredBytes_pos value)] at hlow
    omega
  · refine (requiredBytes_eq_one_or value).imp id fun ⟨hless, hfield⟩ => ?_
    have hspan := fieldSpan_eq_two_mul hless
    have hpos := fieldSpan_pos (requiredBytes value - 1)
    by_contra hlow
    exact hfield ⟨by omega, by omega⟩

/-- The width of an unsigned word counts its bits, and rounds up to whole bytes. -/
theorem requiredBytes_eq_size (h : IsWord value) (hvalue : 0 ≤ value) :
    requiredBytes value = max ((value.toNat.size + 7) / 8) 1 := by
  obtain ⟨hhigh, hlow⟩ := unsigned_range h hvalue
  have hpos := requiredBytes_pos value
  obtain ⟨bits, rfl⟩ := Int.eq_ofNat_of_zero_le hvalue
  rw [Int.toNat_natCast]
  have hpower (count : Nat) : (256 : Int) ^ count = (2 ^ (8 * count) : Nat) := by
    rw [pow_mul, Int.natCast_pow]
    rfl
  rw [hpower, Int.ofNat_lt, ← Nat.size_le] at hhigh
  rw [hpower, Int.ofNat_le, ← Nat.lt_size] at hlow
  omega

/-- The width of a word is between one and eight bytes and the least one that the word has room in:
it is read back from that many bytes and from no fewer, where only zero could do without any. -/
theorem requiredBytes_minimal (h : IsWord value) :
    (1 ≤ requiredBytes value ∧ requiredBytes value ≤ 8) ∧
      (0 ≤ value → value < 256 ^ requiredBytes value ∧
        (requiredBytes value = 1 ∨ 256 ^ (requiredBytes value - 1) ≤ value)) ∧
      (value < 0 → -2 ^ (8 * requiredBytes value - 1) ≤ value ∧
        (requiredBytes value = 1 ∨ value < -2 ^ (8 * (requiredBytes value - 1) - 1))) ∧
      ReadsBack value (requiredBytes value) ∧
      ∀ fewer < requiredBytes value, ReadsBack value fewer → fewer = 0 ∧ value = 0 := by
  have hpos := requiredBytes_pos value
  refine ⟨⟨hpos, requiredBytes_le_eight value⟩, unsigned_range h, signed_range h,
    readsBack_iff.mpr h.inField_requiredBytes, fun fewer hfewer hreads => ?_⟩
  rcases Nat.eq_zero_or_pos fewer with rfl | hsome
  · exact ⟨rfl, eq_zero_of_readsBack_zero hreads⟩
  · have hle := (readsBack_iff_requiredBytes_le h hsome).mp hreads
    omega

/-- One below the two's complement range of seven bytes, a word takes all eight. -/
theorem requiredBytes_minimal_eight :
    IsWord (-0x80000000000001) ∧ requiredBytes (-0x80000000000001) = 8 ∧
      ¬ReadsBack (-0x80000000000001) 7 := by
  have hword : IsWord (-0x80000000000001) := by decide
  have hwidth : requiredBytes (-0x80000000000001) = 8 := by decide
  have hfewer := (requiredBytes_minimal hword).2.2.2.2 7 (by rw [hwidth]; decide)
  refine ⟨hword, hwidth, fun hreads => ?_⟩
  cases (hfewer hreads).1

end Asm65816
