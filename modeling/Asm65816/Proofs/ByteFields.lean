import Asm65816.Instruction

/-!
# Little-endian fields

A field of some bytes holds a number up to multiples of its span. A number that lies in the
unsigned range of the field is read back as an unsigned one, and a number in its signed range is
read back in two's complement.
-/

namespace Asm65816

/-- A field has at least one value. -/
theorem fieldSpan_pos (count : Nat) : 0 < fieldSpan count := by
  induction count with
  | zero => decide
  | succ count ih =>
    rw [fieldSpan]
    omega

/-- The bytes of a word are the low byte and those of the rest. -/
theorem littleEndian_succ (value : Int) (count : Nat) :
    littleEndian value (count + 1) = wordByte value 0 :: littleEndian (value / 256) count := by
  rw [littleEndian, List.range_succ_eq_map, List.map_cons, List.map_map, littleEndian]
  congr 1
  refine List.map_congr_left fun index _ => ?_
  change UInt8.ofNat (value / (256 * fieldSpan index) % 256).toNat = _
  rw [← Int.ediv_ediv_of_nonneg (by decide)]
  rfl

/-- A remainder by a product, from the remainders by its factors. -/
theorem emod_mul_span (value span : Int) (hspan : 0 < span) :
    value % (256 * span) = value % 256 + 256 * (value / 256 % span) := by
  have hinner := Int.mul_ediv_add_emod (value / 256) span
  have hlow := Int.emod_nonneg (value / 256) (Int.ne_of_gt hspan)
  have hhigh := Int.emod_lt_of_pos (value / 256) hspan
  have hquotient : 256 * span * (value / 256 / span) = 256 * (span * (value / 256 / span)) :=
    Int.mul_assoc _ _ _
  have hunique := (Int.ediv_emod_unique (show 0 < 256 * span by omega)).mpr
    (⟨by rw [hquotient]; omega, by omega, by omega⟩ :
      value % 256 + 256 * (value / 256 % span) + 256 * span * (value / 256 / span) = value ∧
        0 ≤ value % 256 + 256 * (value / 256 % span) ∧
        value % 256 + 256 * (value / 256 % span) < 256 * span)
  exact hunique.2

/-- A field as an unsigned number is the word modulo its span. -/
theorem unsignedField_littleEndian (value : Int) (count : Nat) :
    (Encoding.unsignedField (littleEndian value count) : Int) = value % fieldSpan count := by
  induction count generalizing value with
  | zero =>
    change ((0 : Nat) : Int) = value % 1
    omega
  | succ count ih =>
    have hbyte : ((wordByte value 0).toNat : Int) = value % 256 := by
      simp [wordByte, fieldSpan]
      omega
    rw [littleEndian_succ, Encoding.unsignedField, Int.natCast_add, Int.natCast_mul, ih, hbyte,
      fieldSpan, emod_mul_span value _ (fieldSpan_pos count)]
    rfl

/-- A field has as many bytes as it is written with. -/
@[simp] theorem littleEndian_length (value : Int) (count : Nat) :
    (littleEndian value count).length = count := by
  rw [littleEndian, List.length_map, List.length_range]

/-- A number in the unsigned range of a field is read back. -/
theorem unsignedField_littleEndian_of_range {value : Int} {count : Nat} (hlow : 0 ≤ value)
    (hhigh : value < fieldSpan count) :
    (Encoding.unsignedField (littleEndian value count) : Int) = value := by
  rw [unsignedField_littleEndian, Int.emod_eq_of_lt hlow hhigh]

/-- A number in the signed range of a field is read back in two's complement. -/
theorem signedField_littleEndian {value : Int} {count : Nat}
    (hlow : -fieldSpan count ≤ 2 * value) (hhigh : 2 * value < fieldSpan count) :
    Encoding.signedField (littleEndian value count) = value := by
  have hspan := fieldSpan_pos count
  unfold Encoding.signedField
  rw [littleEndian_length, unsignedField_littleEndian]
  by_cases hvalue : 0 ≤ value
  · rw [Int.emod_eq_of_lt hvalue (by omega), if_pos hhigh]
  · have hwrapped : value % fieldSpan count = value + fieldSpan count := by
      rw [← Int.add_emod_right, Int.emod_eq_of_lt (by omega) (by omega)]
    rw [hwrapped, if_neg (by omega)]
    omega

end Asm65816
