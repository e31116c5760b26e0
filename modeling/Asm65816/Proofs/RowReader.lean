import Asm65816.Listing
import Asm65816.Proofs.Digits
import Mathlib.Data.List.Basic

/-!
# Reading the rows of a listing back

A reader of the fixed columns of a row: the digits of an address, the bytes behind them, and a
newline at the end. It knows nothing of how a row is made up. Every row of at most eight bytes has
room for them in front of the instruction and passes this reader, which gives the address within
24 bits and the bytes.
-/

namespace Asm65816

/-! ## The reader -/

/-- The number that hexadecimal digits write. -/
def readHex (digits : List Char) : Option Nat :=
  if digits.all (isDigitIn 16) then some (positionalValue 16 digits) else none

/-- The bytes in columns of two digits and a blank each. The columns behind the last byte are
blank. -/
def readColumns : List Char → Option (List UInt8)
  | [] => some []
  | ' ' :: rest => if rest.all (· == ' ') then some [] else none
  | first :: second :: ' ' :: rest => do
    let byte ← readHex [first, second]
    let bytes ← readColumns rest
    return UInt8.ofNat byte :: bytes
  | _ => none

/-- The address and the bytes that a row shows: two digits of the bank, a colon and four digits of
the offset in it, and 23 columns for bytes behind a blank. -/
def readRow (line : String) : Option (Int × List UInt8) :=
  match line.toList with
  | bankHigh :: bankLow :: ':' :: first :: second :: third :: fourth :: ' ' :: rest => do
    let bank ← readHex [bankHigh, bankLow]
    let offset ← readHex [first, second, third, fourth]
    let bytes ← readColumns (rest.take 23 ++ [' '])
    if rest.getLast? = some '\n' then return (bank * 65536 + offset, bytes) else none
  | _ => none

/-! ## Digits -/

/-- A padded numeral is read. -/
theorem readHex_paddedDigits (width n : Nat) :
    readHex (paddedDigits 16 width n).toList = some n := by
  have hdigits : (paddedDigits 16 width n).toList.all (isDigitIn 16) = true :=
    List.all_eq_true.mpr fun c hc => isDigitIn_of_mem_paddedDigits (by decide) (by decide) hc
  rw [readHex, if_pos hdigits, positionalValue_paddedDigits (by decide) (by decide)]

/-- The digits of a number that has room in a word of `width` digits. -/
theorem hexWord_digits (width : Nat) (value : Int) (hwidth : 0 < width) (hlow : 0 ≤ value)
    (hhigh : value < 16 ^ width) (hword : value < 0x10000000000000000) :
    (hexWord width value).toList.length = width ∧
      readHex (hexWord width value).toList = some value.toNat := by
  have hvalue : unsignedWord value = value.toNat := by
    rw [unsignedWord, Int.emod_eq_of_lt hlow hword]
  rw [hexWord, hvalue]
  refine ⟨paddedDigits_length (by decide) hwidth ?_, readHex_paddedDigits width value.toNat⟩
  have hspan : ((16 ^ width : Nat) : Int) = 16 ^ width := by push_cast; rfl
  omega

/-! ## Columns -/

/-- Blank columns hold no bytes. -/
theorem readColumns_blanks (count : Nat) : readColumns (List.replicate count ' ') = some [] := by
  cases count with
  | zero => rfl
  | succ count => exact if_pos (List.all_replicate.trans (by simp))

/-- The columns of a byte. -/
theorem readColumns_hexByte (byte : UInt8) (rest : List Char) :
    readColumns ((hexByte byte).toList ++ ' ' :: rest) = (readColumns rest).map (byte :: ·) := by
  have hlength : (hexByte byte).toList.length = 2 :=
    paddedDigits_length (by decide) (by decide) byte.toNat_lt
  have hvalue : readHex (hexByte byte).toList = some byte.toNat := readHex_paddedDigits 2 _
  obtain ⟨first, second, hdigits⟩ := List.length_eq_two.mp hlength
  rw [hdigits] at hvalue ⊢
  -- A blank is no digit, so that the column does not end the bytes.
  have hfirst : first ≠ ' ' := by
    rintro rfl
    cases hvalue
  rw [List.cons_append, List.singleton_append, readColumns, hvalue]
  · cases readColumns rest with
    | none => rfl
    | some bytes =>
      simp only [Option.bind_eq_bind, Option.bind_some, UInt8.ofNat_toNat, Option.map_some]
      rfl
  · exact fun hblank => hfirst hblank

/-- The columns of several bytes, with any number of blank columns behind them. -/
theorem readColumns_joinWith (bytes : List UInt8) (count : Nat) :
    readColumns ((joinWith " " (bytes.map hexByte)).toList ++ List.replicate (count + 1) ' ') =
      some bytes := by
  induction bytes with
  | nil => exact readColumns_blanks (count + 1)
  | cons byte rest ih =>
    cases rest with
    | nil =>
      rw [List.map_singleton, joinWith, String.intercalate_singleton, List.replicate_succ,
        readColumns_hexByte, readColumns_blanks]
      rfl
    | cons next rest =>
      rw [joinWith] at ih
      rw [List.map_cons, List.map_cons, joinWith, String.intercalate_cons_cons, ← List.map_cons,
        String.toList_append, String.toList_append, List.append_assoc, List.append_assoc]
      exact (readColumns_hexByte byte _).trans (congrArg (Option.map (byte :: ·)) ih)

/-- Every byte takes two columns, with one between neighbours. -/
theorem length_joinWith_hexByte (bytes : List UInt8) :
    (joinWith " " (bytes.map hexByte)).length ≤ 3 * bytes.length - 1 := by
  have hbyte (byte : UInt8) : (hexByte byte).length = 2 :=
    paddedDigits_length (by decide) (by decide) byte.toNat_lt
  induction bytes with
  | nil => exact Nat.le_refl 0
  | cons byte rest ih =>
    cases rest with
    | nil =>
      rw [List.map_singleton, joinWith, String.intercalate_singleton, hbyte]
      exact Nat.le_refl 2
    | cons next rest =>
      rw [joinWith] at ih
      rw [List.map_cons, List.map_cons, joinWith, String.intercalate_cons_cons, ← List.map_cons,
        String.length_append, String.length_append, hbyte]
      have hblank : (" " : String).length = 1 := rfl
      simp only [List.length_cons] at ih ⊢
      omega

/-! ## Rows -/

/-- The bytes of a row with the gap behind them. -/
def shownBytes (bytes : List UInt8) : String :=
  let shown := joinWith " " (bytes.map hexByte)
  shown ++ blanks (instructionColumn - 1 - leftMargin - shown.length)

/-- Up to eight bytes fill their columns with the gap behind them, and are read back. -/
theorem readColumns_shownBytes {bytes : List UInt8} (h : bytes.length ≤ 8) :
    (shownBytes bytes).toList.length = 23 ∧
      readColumns ((shownBytes bytes).toList ++ [' ']) = some bytes := by
  have hlength := length_joinWith_hexByte bytes
  have hcolumns : instructionColumn - 1 - leftMargin = 23 := rfl
  rw [shownBytes, String.toList_append, blanks, String.toList_ofList]
  constructor
  · rw [List.length_append, List.length_replicate, String.length_toList, hcolumns]
    omega
  · rw [List.append_assoc, ← List.replicate_succ', readColumns_joinWith]

/-- What a row consists of, up to the instruction and its comment. -/
theorem renderRow_eq (address : Int) (bytes : List UInt8) (instruction : String)
    (comment : Option String) :
    ∃ rest, renderRow address bytes instruction comment =
      hexWord 2 (address / 65536 % 256) ++ ":" ++ hexWord 4 (address % 65536) ++ " " ++
        shownBytes bytes ++ (rest ++ "\n") := by
  unfold renderRow shownBytes
  cases comment with
  | none => exact ⟨instruction, by simp only [String.append_assoc]⟩
  | some text =>
    dsimp only
    generalize blanks (commentColumn - _) = padding
    exact ⟨instruction ++ padding ++ text, by simp only [String.append_assoc]⟩

/-- Every row of at most eight bytes is read back. -/
theorem readRow_renderRow (address : Int) {bytes : List UInt8} (instruction : String)
    (comment : Option String) (h : bytes.length ≤ 8) :
    readRow (renderRow address bytes instruction comment) = some (address % 0x1000000, bytes) := by
  obtain ⟨hlength, hbytes⟩ := readColumns_shownBytes h
  obtain ⟨rest, hrow⟩ := renderRow_eq address bytes instruction comment
  obtain ⟨hbankLength, hbank⟩ := hexWord_digits 2 (address / 65536 % 256) (by decide) (by omega)
    (by omega) (by omega)
  obtain ⟨hoffsetLength, hoffset⟩ := hexWord_digits 4 (address % 65536) (by decide) (by omega)
    (by omega) (by omega)
  obtain ⟨bankHigh, bankLow, hbankDigits⟩ := List.length_eq_two.mp hbankLength
  obtain ⟨first, second, third, fourth, hoffsetDigits⟩ : ∃ first second third fourth,
      (hexWord 4 (address % 65536)).toList = [first, second, third, fourth] := by
    match (hexWord 4 (address % 65536)).toList, hoffsetLength with
    | [first, second, third, fourth], _ => exact ⟨first, second, third, fourth, rfl⟩
  rw [hbankDigits] at hbank
  rw [hoffsetDigits] at hoffset
  have hline : (renderRow address bytes instruction comment).toList =
      bankHigh :: bankLow :: ':' :: first :: second :: third :: fourth :: ' ' ::
        ((shownBytes bytes).toList ++ (rest.toList ++ ['\n'])) := by
    simp [hrow, hbankDigits, hoffsetDigits]
  have hcolumns : ((shownBytes bytes).toList ++ (rest.toList ++ ['\n'])).take 23 =
      (shownBytes bytes).toList := by
    rw [← hlength, List.take_left]
  have hend : ((shownBytes bytes).toList ++ (rest.toList ++ ['\n'])).getLast? = some '\n' := by
    rw [← List.append_assoc, List.getLast?_concat]
  have haddress : ((address / 65536 % 256).toNat : Int) * 65536 + (address % 65536).toNat =
      address % 0x1000000 := by omega
  simp only [readRow, hline, hbank, hoffset, hcolumns, hbytes, hend, Option.bind_eq_bind,
    Option.bind_some, if_true, haddress]
  rfl

end Asm65816
