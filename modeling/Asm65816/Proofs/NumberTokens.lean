import Asm65816.Proofs.LinePieces
import Asm65816.Proofs.OperatorWidths
import Mathlib.Data.Nat.Digits.Defs

/-!
# The numbers of a line

A number is written as a mark and digits, in some radices with separators among the digits. It is
worth what its digits are worth by their places, and states a width that has room for its value. The
text that it is shown as is read as the same number.
-/

namespace Asm65816

open scoped Computability

/-! ## Numerals -/

namespace Radix

/-- The marks that digits of a radix stand behind. -/
def marks : Radix → List (List Char)
  | binary => [['%'], ['0', 'b']]
  | octal => [['&'], ['0', 'o']]
  | decimal => [[]]
  | hexadecimal => [['$'], ['0', 'x']]

/-- What stands among the digits and does not count. -/
def isSeparator : Radix → Char → Bool
  | binary, c => c == '_'
  | hexadecimal, c => c == ':'
  | octal, _ | decimal, _ => false

/-- The bytes that a number states: those that its digits fill, or those that its value needs. -/
def statedBytes (radix : Radix) (digits : List Char) (value : Int) : Nat :=
  match radix with
  | hexadecimal => (digits.length + 1) / 2
  | binary => (digits.length + 7) / 8
  | octal | decimal => requiredBytes value

end Radix

/-- A text is a mark, and behind it digits of the radix with separators among them. -/
structure Numeral (radix : Radix) (text digits : List Char) : Prop where
  marked : ∃ mark ∈ radix.marks, ∃ body, text = mark ++ body ∧
    body.filter (fun c => !radix.isSeparator c) = digits
  plain : ∀ c ∈ digits, isDigitIn radix.base c = true

/-- What digits are worth by their places, the last of which counts ones. -/
def placeValue (base : Nat) (digits : List Char) : Nat :=
  Nat.ofDigits base (digits.map fun c => (digitValue? base c).getD 0).reverse

/-- Digits that are gathered from the left are worth the same. -/
theorem positionalValue_eq_placeValue (base : Nat) (digits : List Char) :
    positionalValue base digits = placeValue base digits := by
  induction digits using List.reverseRecOn with
  | nil => rfl
  | append_singleton digits c ih =>
    rw [positionalValue_append_digit, ih, placeValue, placeValue, List.map_append,
      List.reverse_append, List.map_singleton, List.reverse_singleton, List.singleton_append,
      Nat.ofDigits_cons, Nat.mul_comm, Nat.add_comm]

namespace Radix

/-- The number that digits of a radix state, if there are any. -/
def readDigits (radix : Radix) (digits : List Char) : Reading :=
  let value := placeValue radix.base digits
  if digits = [] then .invalid else readNumber value radix (radix.statedBytes digits value)

/-- Digits that state no number: there are none, or they are worth too much, or there are too
many. -/
def Unrepresentable (radix : Radix) (digits : List Char) : Prop :=
  let value := placeValue radix.base digits
  digits = [] ∨ maxWord < value ∨ 255 < radix.statedBytes digits value

variable {radix : Radix} {digits : List Char}

theorem readDigits_eq_number {n : Number} (h : radix.readDigits digits = .token (.number n)) :
    digits ≠ [] ∧ n.radix = radix ∧ n.value = placeValue radix.base digits ∧
      n.width = radix.statedBytes digits n.value := by
  unfold readDigits at h
  dsimp only at h
  split at h
  case isTrue => cases h
  case isFalse hsome =>
    obtain ⟨rfl, -, -⟩ := readNumber_eq_ok.mp h
    exact ⟨hsome, rfl, rfl, rfl⟩

theorem readDigits_cases (radix : Radix) (digits : List Char) :
    (∃ n : Number, n.radix = radix ∧ radix.readDigits digits = .token (.number n)) ∨
      radix.readDigits digits = .invalid ∧ radix.Unrepresentable digits := by
  unfold readDigits readNumber
  dsimp only
  split
  case isTrue hnone => exact .inr ⟨rfl, .inl hnone⟩
  case isFalse hsome =>
    split
    case isTrue => exact .inl ⟨_, rfl, rfl⟩
    case isFalse hrange =>
      refine .inr ⟨rfl, .inr ?_⟩
      rw [not_and_or, Int.not_le, Nat.not_le] at hrange
      exact hrange

end Radix

/-! ## What a number is read from -/

/-- The digits behind a mark are found again. -/
theorem afterMark_append {sign letter : Char} (hsign : sign ≠ '0') {mark : List Char}
    (h : mark ∈ [[sign], ['0', letter]]) (body : List Char) : afterMark (mark ++ body) = body := by
  rcases List.mem_pair.mp h with rfl | rfl
  · unfold afterMark
    split
    case h_1 hcons => exact absurd (List.cons.inj hcons).1 hsign
    case h_2 hcons => exact (List.cons.inj hcons).2.symm
    case h_3 hnil => cases hnil
  · rfl

/-- What is behind one of two marks. -/
theorem mem_twoMarks {first second text : List Char} {language : Language Char}
    (h : text ∈ (({first} : Language Char) + {second}) * language) :
    ∃ mark ∈ [first, second], ∃ body ∈ language, text = mark ++ body := by
  obtain ⟨mark, hmark, body, hbody, rfl⟩ := Language.mem_mul.mp h
  exact ⟨mark, List.mem_pair.mpr hmark, body, hbody, rfl⟩

theorem isDigitIn_of_hexGrouped {body : List Char} (h : hexGrouped body = true) :
    ∀ c ∈ body.filter (· != ':'), isDigitIn 16 c = true := by
  intro c hc
  obtain ⟨hmem, hcolon⟩ := List.mem_filter.mp hc
  induction body with
  | nil => cases hmem
  | cons d rest ih =>
    obtain ⟨hd, hrest⟩ := hexGrouped_cons.mp h
    rcases List.mem_cons.mp hmem with rfl | hlater
    · exact hd.resolve_right fun hseparator => bne_iff_ne.mp hcolon hseparator.1
    · exact ih hrest (List.mem_filter.mpr ⟨hlater, hcolon⟩) hlater

/-- A run of digits that has no separators. -/
theorem Numeral.of_plain {radix : Radix} (hradix : radix = .octal ∨ radix = .decimal)
    {mark body : List Char} (hmark : mark ∈ radix.marks)
    (hbody : body ∈ someOf (isDigitIn radix.base)) : Numeral radix (mark ++ body) body where
  marked := by
    refine ⟨mark, hmark, body, rfl, List.filter_eq_self.mpr fun c _ => ?_⟩
    rcases hradix with rfl | rfl
    · rfl
    · rfl
  plain := (mem_someOf.mp hbody).2

/-- What belongs to the class of a radix is a numeral, and is read as what its digits state. -/
theorem Radix.exists_numeral {radix : Radix} {text : List Char}
    (h : text ∈ radix.tokenClass.pattern) :
    ∃ digits, Numeral radix text digits ∧ radix.tokenClass.read text = radix.readDigits digits := by
  cases radix with
  | hexadecimal =>
    obtain ⟨mark, hmark, body, hbody, rfl⟩ := mem_twoMarks h
    obtain ⟨hstarts, hgrouped⟩ := mem_hexGroups.mp hbody
    have hdigits : body.filter (· != ':') ≠ [] := by
      obtain ⟨c, rest, rfl⟩ : ∃ c rest, body = c :: rest := by
        refine List.exists_cons_of_ne_nil ?_
        rintro rfl
        cases hstarts
      have hcolon : (c != ':') = true := by
        rw [bne_iff_ne]
        rintro rfl
        cases hstarts
      rw [List.filter_cons, if_pos hcolon]
      exact List.cons_ne_nil _ _
    refine ⟨body.filter (· != ':'), ⟨⟨mark, hmark, body, rfl, rfl⟩,
      isDigitIn_of_hexGrouped hgrouped⟩, ?_⟩
    unfold TokenClass.read readDigits
    dsimp only [tokenClass]
    rw [afterMark_append (by decide) hmark, positionalValue_eq_placeValue, if_neg hdigits]
    rfl
  | octal =>
    obtain ⟨mark, hmark, body, hbody, rfl⟩ := mem_twoMarks h
    refine ⟨body, .of_plain (.inl rfl) hmark hbody, ?_⟩
    unfold TokenClass.read readDigits
    dsimp only [tokenClass]
    rw [afterMark_append (by decide) hmark, positionalValue_eq_placeValue,
      if_neg (mem_someOf.mp hbody).1]
    rfl
  | binary =>
    obtain ⟨mark, hmark, body, hbody, rfl⟩ := mem_twoMarks h
    refine ⟨body.filter (· != '_'), ⟨⟨mark, hmark, body, rfl, rfl⟩, fun c hc => ?_⟩, ?_⟩
    · obtain ⟨hmem, hseparator⟩ := List.mem_filter.mp hc
      have hc := Bool.or_eq_true_iff.mp ((mem_someOf.mp hbody).2 c hmem)
      exact hc.resolve_right fun heq => bne_iff_ne.mp hseparator (beq_iff_eq.mp heq)
    · unfold TokenClass.read readDigits
      dsimp only [tokenClass]
      rw [afterMark_append (by decide) hmark, positionalValue_eq_placeValue]
      simp only [List.isEmpty_iff]
      rfl
  | decimal =>
    refine ⟨text, .of_plain (.inr rfl) (List.mem_singleton.mpr rfl) h, ?_⟩
    unfold TokenClass.read readDigits
    dsimp only [tokenClass]
    rw [positionalValue_eq_placeValue, if_neg (mem_someOf.mp h).1]
    rfl

/-- Only the classes of the radices read numbers. -/
theorem TokenClass.eq_of_read_number {kind : TokenClass} {text : List Char} {n : Number}
    (h : kind.read text = .token (.number n)) : ∃ radix : Radix, kind = radix.tokenClass := by
  cases kind with
  | hexadecimal => exact ⟨.hexadecimal, rfl⟩
  | octal => exact ⟨.octal, rfl⟩
  | binary => exact ⟨.binary, rfl⟩
  | decimal => exact ⟨.decimal, rfl⟩
  | punct =>
    unfold read at h
    dsimp only at h
    split at h
    · cases h
    · cases h
  | _ => cases h

/-- A number of a class is what the digits of a numeral state. -/
theorem TokenClass.read_number {kind : TokenClass} {text : List Char} {n : Number}
    (hbelongs : text ∈ kind.pattern) (h : kind.read text = .token (.number n)) :
    ∃ digits, digits ≠ [] ∧ Numeral n.radix text digits ∧
      n.value = placeValue n.radix.base digits ∧
      n.width = n.radix.statedBytes digits n.value := by
  obtain ⟨radix, rfl⟩ := eq_of_read_number h
  obtain ⟨digits, hnumeral, hread⟩ := radix.exists_numeral hbelongs
  obtain ⟨hsome, rfl, hvalue, hwidth⟩ := Radix.readDigits_eq_number (hread.symm.trans h)
  exact ⟨digits, hsome, hnumeral, hvalue, hwidth⟩

/-! ## Widths -/

/-- The width of a literal has room for its value. -/
theorem Number.Literal.requiredBytes_le_width {n : Number} (h : n.Literal) :
    requiredBytes n.value ≤ n.width := by
  have hstated := h.stated
  cases hradix : n.radix with
  | hexadecimal | binary =>
    rw [hradix] at hstated
    exact requiredBytes_le hstated.1 (.of_unsigned h.nonneg hstated.2)
  | octal | decimal =>
    rw [hradix] at hstated
    exact Nat.le_of_eq hstated.symm

/-! ## The numbers of a line -/

/-- A text that is one token is read as that token. -/
theorem lexLine_token {chars : List Char} {kind : TokenKind} (hsome : chars ≠ [])
    (h : nextPiece chars = (chars.length, .token kind)) (source offset : Nat) :
    lexLine source offset chars =
      .ok [⟨kind, ⟨source, offset, offset + byteLength chars⟩, String.ofList chars⟩] := by
  have hcut : scan source offset 0 (chars ++ []) = _ :=
    scan_cut hsome (by rw [List.append_nil, h])
  rw [List.append_nil, h] at hcut
  rw [lexLine, hcut]
  rfl

/-- The text of a literal is one token. -/
theorem Number.Literal.lexLine_render {n : Number} (h : n.Literal) (source offset : Nat) :
    lexLine source offset n.render.toList =
      .ok [⟨.number n, ⟨source, offset, offset + byteLength n.render.toList⟩, n.render⟩] := by
  have hsome : n.render.toList ≠ [] := by
    rw [render_toList h.nonneg]
    exact List.append_ne_nil_of_right_ne_nil _ n.digits_ne_nil
  have hnext : nextPiece (n.render.toList ++ []) = _ := nextPiece_number h nofun
  rw [List.append_nil] at hnext
  rw [lexLine_token hsome hnext, String.ofList_toList]

/-- A number of a line has the value of its digits and a width that has room for it, and the text
that it is shown as is the same number again. -/
theorem lexLine_number {source offset : Nat} {text : List Char} {tokens : List Token}
    (h : lexLine source offset text = .ok tokens) {token : Token} (htoken : token ∈ tokens)
    {n : Number} (hn : token.kind = .number n) :
    (∃ digits, digits ≠ [] ∧ Numeral n.radix token.text.toList digits ∧
      n.value = placeValue n.radix.base digits ∧ n.width = n.radix.statedBytes digits n.value) ∧
    (1 ≤ requiredBytes n.value ∧ requiredBytes n.value ≤ n.width ∧ n.width ≤ 255) ∧
    ∀ source offset, lexLine source offset n.render.toList =
      .ok [⟨.number n, ⟨source, offset, offset + byteLength n.render.toList⟩, n.render⟩] := by
  have hliteral : n.Literal := by
    obtain ⟨piece, hpiece⟩ := lexLine_reads h htoken
    obtain ⟨kind, hreach, hread⟩ := nextPiece_token (hpiece.trans (congrArg Reading.token hn))
    exact TokenClass.read_literal hreach hread
  obtain ⟨kind, hbelongs, hread⟩ := lexLine_token_cut h htoken
  refine ⟨TokenClass.read_number hbelongs (hread.trans (congrArg Reading.token hn)), ?_, ?_⟩
  · exact ⟨requiredBytes_pos n.value, hliteral.requiredBytes_le_width, hliteral.short⟩
  · exact hliteral.lexLine_render

/-- Two bytes are stated by four digits, whatever they are worth. -/
theorem lexLine_number_grouped :
    lexLine 0 5 "$00:0e".toList = .ok [⟨.number ⟨14, .hexadecimal, 2⟩, ⟨0, 5, 11⟩, "$00:0e"⟩] ∧
      (∃ digits, digits ≠ [] ∧ Numeral .hexadecimal "$00:0e".toList digits ∧
        (14 : Int) = placeValue 16 digits ∧ 2 = Radix.statedBytes .hexadecimal digits 14) ∧
      lexLine 0 0 "0x000E".toList =
        .ok [⟨.number ⟨14, .hexadecimal, 2⟩, ⟨0, 0, 6⟩, "0x000E"⟩] := by
  have hlex : lexLine 0 5 "$00:0e".toList =
      .ok [⟨.number ⟨14, .hexadecimal, 2⟩, ⟨0, 5, 11⟩, "$00:0e"⟩] := by
    rfl
  obtain ⟨hdigits, -, hshown⟩ := lexLine_number hlex List.mem_cons_self rfl
  exact ⟨hlex, hdigits, hshown 0 0⟩

end Asm65816
