import Asm65816.Proofs.Digits
import Asm65816.Proofs.LiteralTokens

/-!
# Numerals

A number that was read as a literal is written with as many digits as its width has room for, so
that reading its text again gives the value, the radix and the width.
-/

namespace Asm65816

/-! ## Literals -/

/-- A number that the text of a literal can state. Hexadecimal and binary digits state a width that
has room for them, and the other radices have the width of the value. -/
structure Number.Literal (n : Number) : Prop where
  nonneg : 0 ≤ n.value
  word : n.value ≤ maxWord
  short : n.width ≤ 255
  stated : match n.radix with
    | .hexadecimal | .binary => 1 ≤ n.width ∧ n.value < fieldSpan n.width
    | .octal | .decimal => n.width = requiredBytes n.value

namespace TokenClass

/-- What a mark and digits are cut from, where the class of hexadecimal numbers reaches into it. -/
theorem hexadecimal_reach {text : List Char} (h : 0 < hexadecimal.reach text) :
    ∃ mark rest, text = mark ++ rest ∧ (mark = ['$'] ∨ mark = ['0', 'x']) ∧ startsHex rest = true ∧
      hexadecimal.reach text = mark.length + hexGroupsLength rest := by
  unfold reach at h ⊢
  split at h
  case h_7 rest _ =>
    split at h
    case isTrue hstarts => exact ⟨['$'], rest, rfl, .inl rfl, hstarts, if_pos hstarts⟩
    case isFalse => cases h
  case h_8 rest _ =>
    split at h
    case isTrue hstarts => exact ⟨['0', 'x'], rest, rfl, .inr rfl, hstarts, if_pos hstarts⟩
    case isFalse => cases h
  case h_17 => cases h
  all_goals contradiction

/-- A hexadecimal literal has digits. -/
theorem hexadecimal_digits {text : List Char} (h : 0 < hexadecimal.reach text) :
    (afterMark (text.take (hexadecimal.reach text))).filter (· != ':') ≠ [] := by
  obtain ⟨mark, rest, rfl, hmark, hstarts, hreach⟩ := hexadecimal_reach h
  obtain ⟨c, others, rfl⟩ : ∃ c others, rest = c :: others := by
    cases rest with
    | nil => cases hstarts
    | cons c others => exact ⟨c, others, rfl⟩
  have hdigit : isDigitIn 16 c = true := hstarts
  have hlength : hexGroupsLength (c :: others) = hexGroupsLength others + 1 := by
    rw [hexGroupsLength, if_pos hdigit, Nat.add_comm]
  have hcolon : (c != ':') = true := by
    rw [bne_iff_ne]
    rintro rfl
    cases hstarts
  rw [hreach, hlength, List.take_length_add_append, List.take_succ_cons]
  have hmarked : afterMark (mark ++ c :: others.take (hexGroupsLength others)) =
      c :: others.take (hexGroupsLength others) := by
    rcases hmark with rfl | rfl
    · rfl
    · rfl
  rw [hmarked, List.filter_cons, if_pos hcolon]
  exact List.cons_ne_nil _ _

end TokenClass

/-- A number that is read is a word, with a width that fits a byte. -/
theorem readNumber_eq_ok {value width : Nat} {radix : Radix} {n : Number} :
    readNumber value radix width = .token (.number n) ↔
      n = ⟨value, radix, width⟩ ∧ (value : Int) ≤ maxWord ∧ width ≤ 255 := by
  constructor
  · intro h
    refine ⟨readNumber_eq_token h, ?_⟩
    unfold readNumber at h
    split at h
    case isTrue hrange => exact hrange
    case isFalse => cases h
  · rintro ⟨rfl, hrange⟩
    exact if_pos hrange

/-- A number is the literal of its digits where the width counts the bytes they fill. -/
theorem literal_of_digits {base perByte width : Nat} {digits : List Char} {radix : Radix}
    (hradix : radix = .hexadecimal ∨ radix = .binary) (hbase : 0 < base)
    (hbyte : Nat.pow base perByte = 256) (hroom : digits.length ≤ perByte * width)
    (hwidth : 1 ≤ width) {n : Number}
    (h : readNumber (positionalValue base digits) radix width = .token (.number n)) :
    n.Literal := by
  obtain ⟨rfl, hword, hshort⟩ := readNumber_eq_ok.mp h
  have hfield := positionalValue_inField hbase hbyte hroom
  refine ⟨Int.natCast_nonneg _, hword, hshort, ?_⟩
  rcases hradix with rfl | rfl
  · exact ⟨hwidth, hfield.2⟩
  · exact ⟨hwidth, hfield.2⟩

/-- A number is the literal of its digits where it is as wide as its value. -/
theorem literal_of_value {value width : Nat} {radix : Radix}
    (hradix : radix = .octal ∨ radix = .decimal) (hwidth : width = requiredBytes value) {n : Number}
    (h : readNumber value radix width = .token (.number n)) : n.Literal := by
  obtain ⟨rfl, hword, hshort⟩ := readNumber_eq_ok.mp h
  refine ⟨Int.natCast_nonneg _, hword, hshort, ?_⟩
  rcases hradix with rfl | rfl
  · exact hwidth
  · exact hwidth

/-- What a class reads as a number is a literal. -/
theorem TokenClass.read_literal {kind : TokenClass} {text : List Char} {n : Number}
    (hreach : 0 < kind.reach text)
    (h : kind.read (text.take (kind.reach text)) = .token (.number n)) : n.Literal := by
  cases kind with
  | hexadecimal =>
    have hdigits := List.length_pos_iff.mpr (hexadecimal_digits hreach)
    exact literal_of_digits (.inl rfl) (by omega) (show Nat.pow 16 2 = 256 from rfl) (by omega)
      (by omega) h
  | binary =>
    unfold read at h
    dsimp only at h
    split at h
    case isTrue => cases h
    case isFalse hdigits =>
      rw [List.isEmpty_iff, ← ne_eq, ← List.length_pos_iff] at hdigits
      exact literal_of_digits (.inr rfl) (by omega) (show Nat.pow 2 8 = 256 from rfl) (by omega)
        (by omega) h
  | octal => exact literal_of_value (.inl rfl) rfl h
  | decimal => exact literal_of_value (.inr rfl) rfl h
  | punct =>
    unfold read at h
    dsimp only at h
    split at h
    · cases h
    · cases h
  | _ => cases h

/-! ## The text of a literal -/

namespace Radix

def base : Radix → Nat
  | binary => 2
  | octal => 8
  | decimal => 10
  | hexadecimal => 16

/-- What stands before the digits of a number as it is written. -/
def mark : Radix → List Char
  | binary => ['0', 'b']
  | octal => ['0', 'o']
  | decimal => []
  | hexadecimal => ['0', 'x']

/-- How many digits fill a byte, where the digits state the width. -/
def perByte : Radix → Nat
  | binary => 8
  | hexadecimal => 2
  | octal | decimal => 0

/-- The class of the numbers that are written in a radix. -/
def tokenClass : Radix → TokenClass
  | binary => .binary
  | octal => .octal
  | decimal => .decimal
  | hexadecimal => .hexadecimal

theorem one_lt_base (radix : Radix) : 1 < radix.base := by
  cases radix with
  | _ => decide

theorem base_le (radix : Radix) : radix.base ≤ 16 := by
  cases radix with
  | _ => decide

end Radix

/-- A decimal digit has no upper case of its own. -/
theorem toUpper_of_isDigit {c : Char} (h : c.isDigit = true) : c.toUpper = c := by
  have hrange : ¬('a'.val ≤ c.val ∧ c.val ≤ 'z'.val) := by
    simp only [Char.isDigit, Bool.and_eq_true, decide_eq_true_eq, UInt32.le_iff_toNat_le] at h ⊢
    rintro ⟨hlow, -⟩
    exact absurd (Nat.le_trans hlow h.2) (by decide)
  exact dif_neg hrange

/-- A number that is not negative is shown by its decimal digits. -/
theorem toString_toList {value : Int} (h : 0 ≤ value) :
    (toString value).toList = digitsIn 10 value.toNat := by
  obtain ⟨n, rfl⟩ := Int.eq_ofNat_of_zero_le h
  have hupper : ∀ c ∈ Nat.toDigits 10 n, c.toUpper = id c := fun c hc =>
    toUpper_of_isDigit (Nat.isDigit_of_mem_toDigits (by decide) (by decide) hc)
  rw [Int.toNat_natCast, digitsIn, List.map_congr_left hupper, List.map_id]
  exact Nat.toList_repr

namespace Number

/-- The digits of a number as it is written. -/
def digits (n : Number) : List Char :=
  (paddedDigits n.radix.base (n.radix.perByte * n.width) n.value.toNat).toList

variable {n : Number}

/-- A number that is not negative is written as a mark and digits. -/
theorem render_toList (h : 0 ≤ n.value) : n.render.toList = n.radix.mark ++ n.digits := by
  obtain ⟨value, radix, width⟩ := n
  rw [render, if_neg (Int.not_lt.mpr h)]
  cases radix with
  | decimal =>
    have hplaces : Radix.perByte .decimal * width = 0 := Nat.zero_mul width
    refine (toString_toList h).trans ?_
    rw [digits, hplaces, paddedDigits_toList, Nat.zero_sub]
    rfl
  | octal =>
    have hplaces : Radix.perByte .octal * width = 0 := Nat.zero_mul width
    rw [digits, hplaces]
    exact String.toList_append
  | binary | hexadecimal => exact String.toList_append

theorem digits_ne_nil (n : Number) : n.digits ≠ [] := paddedDigits_ne_nil _ _ _

/-- The digits of a number have its value. -/
theorem positionalValue_digits (n : Number) :
    positionalValue n.radix.base n.digits = n.value.toNat :=
  positionalValue_paddedDigits n.radix.one_lt_base n.radix.base_le _ _

theorem isDigitIn_of_mem_digits {c : Char} (h : c ∈ n.digits) : isDigitIn n.radix.base c = true :=
  isDigitIn_of_mem_paddedDigits n.radix.one_lt_base n.radix.base_le h

/-- Marks that are no digits are not left out of the digits. -/
theorem filter_digits {mark : Char} (h : isDigitIn n.radix.base mark = false) :
    n.digits.filter (· != mark) = n.digits := by
  refine List.filter_eq_self.mpr fun c hc => ?_
  rw [bne_iff_ne]
  rintro rfl
  cases h.symm.trans (isDigitIn_of_mem_digits hc)

/-- Hexadecimal and binary digits fill the width of a literal. -/
theorem Literal.digits_length (h : n.Literal)
    (hradix : n.radix = .hexadecimal ∨ n.radix = .binary) :
    1 ≤ n.width ∧ n.digits.length = n.radix.perByte * n.width := by
  obtain ⟨hnonneg, -, -, hstated⟩ := h
  obtain ⟨value, radix, width⟩ := n
  obtain ⟨value, rfl⟩ := Int.eq_ofNat_of_zero_le hnonneg
  have hroom : 1 ≤ width ∧ (value : Int) < fieldSpan width := by
    rcases hradix with rfl | rfl
    · exact hstated
    · exact hstated
  have hbyte : Nat.pow radix.base radix.perByte = 256 ∧ 0 < radix.perByte := by
    rcases hradix with rfl | rfl
    · exact ⟨rfl, by decide⟩
    · exact ⟨rfl, by decide⟩
  obtain ⟨hwidth, hvalue⟩ := hroom
  rw [fieldSpan_eq_pow hbyte.1, Int.ofNat_lt] at hvalue
  exact ⟨hwidth, paddedDigits_length radix.one_lt_base (Nat.mul_pos hbyte.2 hwidth) hvalue⟩

/-- A literal is read from its value, its radix and its width. -/
theorem Literal.readNumber_eq (h : n.Literal) {value width : Nat} {radix : Radix}
    (hvalue : (value : Int) = n.value) (hradix : radix = n.radix) (hwidth : width = n.width) :
    readNumber value radix width = .token (.number n) := by
  subst hradix hwidth
  refine readNumber_eq_ok.mpr ⟨?_, hvalue ▸ h.word, h.short⟩
  rw [hvalue]

/-- The text of a literal is read back as the number. -/
theorem Literal.read (h : n.Literal) :
    n.radix.tokenClass.read n.render.toList = .token (.number n) := by
  have hvalue : (positionalValue n.radix.base n.digits : Int) = n.value := by
    rw [positionalValue_digits, Int.toNat_of_nonneg h.nonneg]
  have hstated := h.stated
  have hlength := h.digits_length
  have hfilter : ∀ mark, isDigitIn n.radix.base mark = false →
      n.digits.filter (· != mark) = n.digits := fun _ => filter_digits
  rw [render_toList h.nonneg]
  cases hradix : n.radix with
  | decimal =>
    rw [hradix] at hvalue hstated
    simp only [Radix.tokenClass, Radix.mark, List.nil_append, TokenClass.read]
    exact h.readNumber_eq hvalue hradix.symm ((congrArg requiredBytes hvalue).trans hstated.symm)
  | octal =>
    rw [hradix] at hvalue hstated
    simp only [Radix.tokenClass, Radix.mark, List.cons_append, List.nil_append, TokenClass.read,
      afterMark]
    exact h.readNumber_eq hvalue hradix.symm ((congrArg requiredBytes hvalue).trans hstated.symm)
  | hexadecimal =>
    rw [hradix] at hvalue hlength hfilter
    obtain ⟨-, hcount⟩ := hlength (.inl rfl)
    change readNumber (positionalValue 16 (n.digits.filter (· != ':'))) .hexadecimal
      (((n.digits.filter (· != ':')).length + 1) / 2) = _
    rw [hfilter ':' (by decide)]
    refine h.readNumber_eq hvalue hradix.symm ?_
    rw [hcount]
    change (2 * n.width + 1) / 2 = n.width
    omega
  | binary =>
    rw [hradix] at hvalue hlength hfilter
    obtain ⟨hwidth, hcount⟩ := hlength (.inr rfl)
    change (if (n.digits.filter (· != '_')).isEmpty then .invalid
      else readNumber (positionalValue 2 (n.digits.filter (· != '_'))) .binary
        (((n.digits.filter (· != '_')).length + 7) / 8)) = _
    rw [hfilter '_' (by decide), if_neg (by simpa using n.digits_ne_nil)]
    refine h.readNumber_eq hvalue hradix.symm ?_
    rw [hcount]
    change (8 * n.width + 7) / 8 = n.width
    omega

end Number

end Asm65816
