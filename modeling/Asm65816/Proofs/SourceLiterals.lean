import Asm65816.Line.Reader
import Asm65816.Proofs.StatedWidth

/-!
# The literals of a source

A literal states a width that holds its value: hexadecimal and binary literals by the number of
their digits, the others by their value. Reading a line hands the numbers of its tokens on to the
expressions as they are, so that every literal of a source is sound.
-/

namespace Asm65816

/-! ## Numerals -/

/-- A digit is below its base, and what is no digit counts as zero. -/
theorem digitValue?_lt {base : Nat} (hbase : 0 < base) (c : Char) :
    (digitValue? base c).getD 0 < base := by
  unfold digitValue?
  dsimp only
  generalize (if '0' ≤ c ∧ c ≤ '9' then _ else _ : Nat) = value
  split
  case isTrue hvalue => exact hvalue
  case isFalse => exact hbase

/-- Digits behind a number extend it by as many places as there are digits. -/
theorem foldl_digits_lt {base : Nat} (hbase : 0 < base) (digits : List Char) (total : Nat) :
    digits.foldl (fun total c => total * base + (digitValue? base c).getD 0) total <
      (total + 1) * Nat.pow base digits.length := by
  induction digits generalizing total with
  | nil =>
    change total < (total + 1) * 1
    omega
  | cons c rest ih =>
    have hdigit := digitValue?_lt hbase c
    rw [List.foldl_cons, List.length_cons]
    have hnext : total * base + (digitValue? base c).getD 0 + 1 ≤ (total + 1) * base := by
      rw [Nat.add_mul]
      omega
    calc
      _ < (total * base + (digitValue? base c).getD 0 + 1) * Nat.pow base rest.length := ih _
      _ ≤ (total + 1) * base * Nat.pow base rest.length := Nat.mul_le_mul_right _ hnext
      _ = (total + 1) * (Nat.pow base rest.length * base) := by
        rw [Nat.mul_assoc, Nat.mul_comm base]

/-- A numeral is below the power of its base by the number of its digits. -/
theorem positionalValue_lt {base : Nat} (hbase : 0 < base) (digits : List Char) :
    positionalValue base digits < Nat.pow base digits.length := by
  have h := foldl_digits_lt hbase digits 0
  rw [Nat.zero_add, Nat.one_mul] at h
  exact h

/-- A field tells as many values apart as numerals with the digits of its bytes. -/
theorem fieldSpan_eq_pow {base digits : Nat} (hbyte : Nat.pow base digits = 256) (count : Nat) :
    fieldSpan count = (Nat.pow base (digits * count) : Nat) := by
  induction count with
  | zero => rfl
  | succ count ih =>
    have hsplit : Nat.pow base (digits * (count + 1)) = Nat.pow base (digits * count) * 256 := by
      rw [← hbyte]
      exact Nat.pow_add base (digits * count) digits
    rw [fieldSpan, ih, hsplit, Int.natCast_mul, Int.mul_comm]
    rfl

/-- A numeral fits a field that has room for all of its digits. -/
theorem positionalValue_inField {base perByte count : Nat} {digits : List Char} (hbase : 0 < base)
    (hbyte : Nat.pow base perByte = 256) (hroom : digits.length ≤ perByte * count) :
    InField (positionalValue base digits) count := by
  have hvalue := positionalValue_lt hbase digits
  have hspan : Nat.pow base digits.length ≤ Nat.pow base (perByte * count) :=
    Nat.pow_le_pow_right hbase hroom
  apply InField.of_unsigned (Int.natCast_nonneg _)
  rw [fieldSpan_eq_pow hbyte]
  exact Int.ofNat_lt.mpr (Nat.lt_of_lt_of_le hvalue hspan)

/-! ## Tokens -/

/-- A token that is no number, or a sound one. -/
def Token.Sound (token : Token) : Prop := ∀ n, token.kind = .number n → n.Sound

/-- Tokens whose numbers are sound. -/
def SoundTokens (tokens : List Token) : Prop := ∀ token ∈ tokens, token.Sound

/-- A number is read as it is given. -/
theorem readNumber_eq_token {value width : Nat} {radix : Radix} {n : Number}
    (h : readNumber value radix width = .token (.number n)) : n = ⟨value, radix, width⟩ := by
  unfold readNumber at h
  split at h
  case isTrue =>
    simp only [Reading.token.injEq, TokenKind.number.injEq] at h
    exact h.symm
  case isFalse => cases h

/-- Every class reads sound numbers. -/
theorem TokenClass.read_sound {kind : TokenClass} {text : List Char} {n : Number}
    (h : kind.read text = .token (.number n)) : n.Sound := by
  cases kind with
  | hexadecimal =>
    obtain rfl := readNumber_eq_token h
    intro _
    exact positionalValue_inField (by omega) (show Nat.pow 16 2 = 256 from rfl)
      (by dsimp only; omega)
  | binary =>
    unfold read at h
    dsimp only at h
    split at h
    case isTrue => cases h
    case isFalse =>
      obtain rfl := readNumber_eq_token h
      intro _
      exact positionalValue_inField (by omega) (show Nat.pow 2 8 = 256 from rfl)
        (by dsimp only; omega)
  | octal | decimal =>
    rw [readNumber_eq_token h]
    apply Number.sound_of_requiredBytes
    dsimp only
    exact Nat.le_refl _
  | punct =>
    unfold read at h
    dsimp only at h
    split at h
    · cases h
    · cases h
  | _ => cases h

/-- The next piece of a text is no number, or a sound one. -/
theorem nextPiece_sound {text : List Char} {n : Number}
    (h : (nextPiece text).2 = .token (.number n)) : n.Sound := by
  unfold nextPiece at h
  split at h
  · exact TokenClass.read_sound h
  · split at h
    · cases h
    · cases h

/-- Every token of a text is what one of its pieces amounts to. -/
theorem scan_reads {source offset pending : Nat} {text : List Char} {token : Token}
    (h : .ok token ∈ scan source offset pending text) :
    ∃ piece, (nextPiece piece).2 = .token token.kind := by
  induction text generalizing offset pending with
  | nil => cases h
  | cons c rest ih =>
    cases pending with
    | succ count => exact ih h
    | zero =>
      rw [scan] at h
      dsimp only at h
      split at h
      case h_1 => exact ih h
      case h_2 kind hkind =>
        rcases List.mem_cons.mp h with hhead | hrest
        · obtain rfl := Except.ok.inj hhead
          exact ⟨_, hkind⟩
        · exact ih hrest
      case h_3 =>
        rcases List.mem_cons.mp h with hhead | hrest
        · cases hhead
        · exact ih hrest

/-- Every token of a line is what one of its pieces amounts to. -/
theorem lexLine_reads {source offset : Nat} {text : List Char} {tokens : List Token}
    (h : lexLine source offset text = .ok tokens) {token : Token} (htoken : token ∈ tokens) :
    ∃ piece, (nextPiece piece).2 = .token token.kind := by
  unfold lexLine at h
  dsimp only at h
  split at h
  case h_1 =>
    cases h
    obtain ⟨result, hresult, hok⟩ := List.mem_filterMap.mp htoken
    exact scan_reads (toOption_eq_some.mp hok ▸ hresult)
  case h_2 => cases h

/-- The tokens of a line are sound. -/
theorem lexLine_sound {source offset : Nat} {text : List Char} {tokens : List Token}
    (h : lexLine source offset text = .ok tokens) : SoundTokens tokens := by
  intro token htoken n hn
  obtain ⟨piece, hpiece⟩ := lexLine_reads h htoken
  exact nextPiece_sound (hpiece.trans (congrArg Reading.token hn))

/-! ## Operands -/

variable {equates : Table Number}

/-- A reader that makes expressions with sound literals of sound tokens. -/
def ReadsSound (equates : Table Number) (reader : OperandReader) : Prop :=
  ∀ expected tokens e rest, SoundTokens tokens → reader expected tokens = .ok (e, rest) →
    e.SoundLiterals equates ∧ SoundTokens rest

namespace SoundTokens

variable {token : Token} {tokens : List Token}

/-- What is left of sound tokens is sound. -/
theorem tail (h : SoundTokens (token :: tokens)) : SoundTokens tokens :=
  fun found hfound => h found (List.mem_cons_of_mem _ hfound)

/-- The first of sound tokens is sound. -/
theorem head (h : SoundTokens (token :: tokens)) : token.Sound := h token List.mem_cons_self

end SoundTokens

section Readers

variable {inner next : OperandReader}

/-- The items of a group have sound literals. -/
theorem readItems_sound (hinner : ReadsSound equates inner) {close : Punct} {limit : Nat}
    {tokens rest : List Token} {items : List Expr} (htokens : SoundTokens tokens)
    (h : readItems inner close limit tokens = .ok (items, rest)) :
    (∀ item ∈ items, item.SoundLiterals equates) ∧ SoundTokens rest := by
  induction limit generalizing tokens items with
  | zero => cases h
  | succ limit ih =>
    simp only [readItems, bind_eq_ok] at h
    obtain ⟨⟨item, others⟩, hitem, h⟩ := h
    obtain ⟨hsound, hothers⟩ := hinner _ _ _ _ htokens hitem
    dsimp only at h
    split at h
    case h_1 sign span text others' =>
      split at h
      · cases h
        exact ⟨by simpa using hsound, hothers.tail⟩
      · split at h
        · obtain ⟨⟨more, left⟩, hmore, hresult⟩ := bind_eq_ok.mp h
          cases hresult
          obtain ⟨hmoreSound, hleft⟩ := ih hothers.tail hmore
          exact ⟨by simpa using ⟨hsound, hmoreSound⟩, hleft⟩
        · cases h
    case h_2 => cases h

/-- An atom has sound literals. -/
theorem readAtom_sound (hinner : ReadsSound equates inner) :
    ReadsSound equates (readAtom inner) := by
  intro expected tokens e rest htokens h
  unfold readAtom at h
  split at h
  case h_1 n span text others =>
    cases h
    exact ⟨htokens.head n rfl, htokens.tail⟩
  case h_2 | h_3 =>
    cases h
    exact ⟨trivial, htokens.tail⟩
  case h_4 =>
    split at h
    · cases h
      exact ⟨trivial, htokens.tail.tail⟩
    · cases h
  case h_5 | h_6 =>
    obtain ⟨⟨items, others⟩, hitems, hresult⟩ := bind_eq_ok.mp h
    cases hresult
    obtain ⟨hsound, hothers⟩ := readItems_sound hinner htokens.tail hitems
    exact ⟨Expr.soundLiteralsAll_iff.mpr hsound, hothers⟩
  case h_7 => cases h

/-- Going on with operators keeps the literals sound. -/
theorem readChainRest_sound (hnext : ReadsSound equates next) {operator : Punct → Option BinaryOp}
    {after : Expectation} {limit : Nat} {left e : Expr} {tokens rest : List Token}
    (hleft : left.SoundLiterals equates) (htokens : SoundTokens tokens)
    (h : readChainRest operator after next limit left tokens = .ok (e, rest)) :
    e.SoundLiterals equates ∧ SoundTokens rest := by
  induction limit generalizing left tokens with
  | zero =>
    cases h
    exact ⟨hleft, htokens⟩
  | succ limit ih =>
    unfold readChainRest at h
    split at h
    case h_1 heq =>
      cases heq
      split at h
      case h_1 =>
        obtain ⟨⟨right, more⟩, hright, hrest⟩ := bind_eq_ok.mp h
        obtain ⟨hsound, hmore⟩ := hnext _ _ _ _ htokens.tail hright
        refine ih ?_ hmore hrest
        exact ⟨hleft, hsound⟩
      case h_2 =>
        cases h
        exact ⟨hleft, htokens⟩
    case h_2 =>
      cases h
      exact ⟨hleft, htokens⟩

/-- A chain of operators has sound literals. -/
theorem readChain_sound (hnext : ReadsSound equates next) (operator : Punct → Option BinaryOp)
    (after : Expectation) : ReadsSound equates (readChain operator after next) := by
  intro expected tokens e rest htokens h
  obtain ⟨⟨first, others⟩, hfirst, hrest⟩ := bind_eq_ok.mp h
  obtain ⟨hsound, hothers⟩ := hnext _ _ _ _ htokens hfirst
  exact readChainRest_sound hnext hsound hothers hrest

/-- Prefixes add no literals. -/
theorem readPrefixes_sound (hnext : ReadsSound equates next) (operator : Punct → Option UnaryOp)
    (after : Expectation) : ReadsSound equates (readPrefixes operator after next) := by
  intro expected tokens
  induction tokens generalizing expected with
  | nil => exact hnext expected []
  | cons token others ih =>
    intro e rest htokens h
    unfold readPrefixes at h
    split at h
    case h_1 sign span text others' heq =>
      cases heq
      split at h
      case h_1 =>
        obtain ⟨⟨operand, more⟩, hoperand, hresult⟩ := bind_eq_ok.mp h
        cases hresult
        exact ih after operand rest htokens.tail hoperand
      case h_2 => exact hnext _ _ _ _ htokens h
    case h_2 => exact hnext _ _ _ _ htokens h

/-- Operands whose groups have sound literals have sound literals. -/
theorem readOperandWith_sound (hinner : ReadsSound equates inner) :
    ReadsSound equates (readOperandWith inner) := by
  have hsigned : ReadsSound equates (readSigned inner) :=
    readPrefixes_sound (readChain_sound (readAtom_sound hinner) _ _) _ _
  have hshift : ReadsSound equates (readShift inner) :=
    readChain_sound (readChain_sound (readChain_sound hsigned _ _) _ _) _ _
  have hbitwise : ReadsSound equates (readBitwise inner) :=
    readChain_sound (readChain_sound (readChain_sound hshift _ _) _ _) _ _
  have hlogical : ReadsSound equates (readLogical inner) :=
    readChain_sound (readChain_sound
      (readPrefixes_sound (readChain_sound hbitwise _ _) _ _) _ _) _ _
  intro expected tokens e rest htokens h
  unfold readOperandWith at h
  split at h
  case h_1 =>
    obtain ⟨⟨operand, others⟩, hoperand, hresult⟩ := bind_eq_ok.mp h
    cases hresult
    have hsound : operand.SoundLiterals equates ∧ SoundTokens rest :=
      hlogical _ _ _ _ htokens.tail hoperand
    exact hsound
  case h_2 => exact hlogical _ _ _ _ htokens h

end Readers

/-- Operands have sound literals, to any depth of groups. -/
theorem readOperandTo_sound (depth : Nat) : ReadsSound equates (readOperandTo depth) := by
  induction depth with
  | zero =>
    intro expected tokens e rest _ h
    cases h
  | succ depth ih => exact readOperandWith_sound ih

/-- An operand has sound literals. -/
theorem readOperand_sound : ReadsSound equates readOperand :=
  fun expected tokens => readOperandTo_sound (tokens.length + 1) expected tokens

/-! ## Lines -/

/-- The operands of a line. -/
def LineBody.operands : LineBody → List Expr
  | .equate _ value => [value]
  | .statements _ found => found.flatMap Statement.operands

/-- The operands of a statement have sound literals. -/
theorem readOperands_sound {limit : Nat} {expected : Expectation} {tokens rest : List Token}
    {operands : List Expr} {ellipsis : Bool} (htokens : SoundTokens tokens)
    (h : readOperands limit expected tokens = .ok (operands, ellipsis, rest)) :
    (∀ operand ∈ operands, operand.SoundLiterals equates) ∧ SoundTokens rest := by
  induction limit generalizing expected tokens operands ellipsis with
  | zero => cases h
  | succ limit ih =>
    simp only [readOperands, bind_eq_ok] at h
    obtain ⟨⟨first, others⟩, hfirst, h⟩ := h
    obtain ⟨hsound, hothers⟩ := readOperand_sound _ _ _ _ htokens hfirst
    dsimp only at h
    split at h
    case h_1 =>
      cases h
      exact ⟨by simpa using hsound, hothers.tail.tail⟩
    case h_2 =>
      obtain ⟨⟨more, found, left⟩, hmore, hresult⟩ := bind_eq_ok.mp h
      cases hresult
      obtain ⟨hmoreSound, hleft⟩ := ih hothers.tail hmore
      exact ⟨by simpa using ⟨hsound, hmoreSound⟩, hleft⟩
    case h_3 =>
      cases h
      exact ⟨by simpa using hsound, hothers⟩

/-- A statement has sound literals. -/
theorem readStatement_sound {afterName : Expectation} {name : Spanned String}
    {tokens rest : List Token} {statement : Statement} (htokens : SoundTokens tokens)
    (h : readStatement afterName name tokens = .ok (statement, rest)) :
    (∀ operand ∈ statement.operands, operand.SoundLiterals equates) ∧ SoundTokens rest := by
  unfold readStatement at h
  dsimp only at h
  split at h
  case h_1 =>
    cases h
    exact ⟨by simp, htokens⟩
  case h_2 =>
    cases h
    exact ⟨by simp, htokens⟩
  case h_3 =>
    split at h
    case h_1 | h_2 =>
      cases h
      exact ⟨by simp, htokens.tail⟩
    case h_3 => cases h
  case h_4 =>
    obtain ⟨⟨operands, ellipsis, others⟩, hoperands, h⟩ := bind_eq_ok.mp h
    dsimp only at h
    split at h
    case h_1 | h_2 =>
      cases h
      exact readOperands_sound htokens hoperands
    case h_3 => cases h

/-- The statements of a line have sound literals. -/
theorem readStatements_sound {limit : Nat} {afterName : Expectation} {name : Spanned String}
    {tokens : List Token} {statements : List Statement} {trailing : Option Span}
    (htokens : SoundTokens tokens)
    (h : readStatements limit afterName name tokens = .ok (statements, trailing)) :
    ∀ statement ∈ statements, ∀ operand ∈ statement.operands, operand.SoundLiterals equates := by
  induction limit generalizing afterName name tokens statements trailing with
  | zero => cases h
  | succ limit ih =>
    simp only [readStatements, bind_eq_ok] at h
    obtain ⟨⟨statement, rest⟩, hstatement, h⟩ := h
    obtain ⟨hsound, hrest⟩ := readStatement_sound htokens hstatement
    dsimp only at h
    split at h
    case h_1 | h_2 =>
      cases h
      simpa using hsound
    case h_3 =>
      obtain ⟨⟨more, found⟩, hmore, hresult⟩ := bind_eq_ok.mp h
      cases hresult
      simpa using ⟨hsound, ih hrest.tail.tail hmore⟩
    case h_4 => cases h

/-- Finding the label of a line adds no statements. -/
theorem placeLabel_operands {offset : Nat} {statements : List Statement} {trailing : Option Span}
    {body : LineBody} (h : placeLabel offset statements trailing = .ok body) :
    ∀ operand ∈ body.operands, ∃ statement ∈ statements, operand ∈ statement.operands := by
  have hkept : ∃ label others, body = .statements label others ∧
      ∀ statement ∈ others, statement ∈ statements := by
    unfold placeLabel at h
    cases statements with
    | nil => grind
    | cons first rest => grind
  obtain ⟨label, others, rfl, hothers⟩ := hkept
  intro operand hoperand
  obtain ⟨statement, hstatement, hmem⟩ := List.mem_flatMap.mp hoperand
  exact ⟨statement, hothers statement hstatement, hmem⟩

/-- A line has sound literals. -/
theorem readBody_sound {source offset stop : Nat} {tokens : List Token} {body : LineBody}
    (htokens : SoundTokens tokens) (h : readBody source offset stop tokens = .ok body) :
    ∀ operand ∈ body.operands, operand.SoundLiterals equates := by
  unfold readBody at h
  dsimp only at h
  split at h
  case h_1 =>
    split at h
    case h_1 => cases h
    case h_2 value hvalue =>
      cases h
      simpa [LineBody.operands] using
        (readOperand_sound _ _ _ _ htokens.tail.tail hvalue).1
    case h_3 => cases h
  case h_2 =>
    split at h
    case h_1 => cases h
    case h_2 statements trailing hstatements =>
      intro operand hoperand
      obtain ⟨statement, hstatement, hmem⟩ := placeLabel_operands h operand hoperand
      exact readStatements_sound htokens.tail hstatements statement hstatement operand hmem
  case h_3 => cases h

/-- Every line that is read is one of the given texts. -/
theorem readLines_mem {source number offset : Nat} {file : String}
    {includedFrom : List IncludeSite} {texts : List (List Char)}
    {result : Except (List Diagnostic) (Option Line)}
    (h : result ∈ readLines source file includedFrom number offset texts) :
    ∃ location text, result = readLine location text := by
  induction texts generalizing number offset with
  | nil => cases h
  | cons text rest ih =>
    rcases List.mem_cons.mp h with hhead | hrest
    · exact ⟨_, text, hhead⟩
    · exact ih hrest

/-- A line that is read has sound literals. -/
theorem readLine_sound {location : Location} {text : List Char} {line : Line}
    (h : readLine location text = .ok (some line)) :
    ∀ operand ∈ line.body.operands, operand.SoundLiterals equates := by
  obtain ⟨tokens, htokens, h⟩ := bind_eq_ok.mp h
  split at h
  case h_1 => cases h
  case h_2 =>
    split at h
    case h_1 => cases h
    case h_2 =>
      split at h
      case h_1 body hbody =>
        cases h
        exact readBody_sound (lexLine_sound htokens) hbody
      case h_2 => cases h

/-- Every line of a source is read from some text. -/
theorem readSource_mem {source : Nat} {file text : String} {includedFrom : List IncludeSite}
    {read : SourceLines} (h : readSource source file text includedFrom = .ok read) {line : Line}
    (hline : line ∈ read.lines) :
    ∃ location piece, readLine location piece = .ok (some line) := by
  unfold readSource at h
  dsimp only at h
  split at h
  case h_1 =>
    cases h
    obtain ⟨found, hfound, hsome⟩ := List.mem_filterMap.mp hline
    obtain ⟨result, hresult, hok⟩ := List.mem_filterMap.mp hfound
    obtain ⟨location, piece, rfl⟩ := readLines_mem hresult
    obtain rfl : found = some line := hsome
    exact ⟨location, piece, toOption_eq_some.mp hok⟩
  case h_2 => cases h

/-- The lines of a source have sound literals. -/
theorem readSource_sound {source : Nat} {file text : String} {includedFrom : List IncludeSite}
    {lines : SourceLines} (h : readSource source file text includedFrom = .ok lines) :
    ∀ line ∈ lines.lines, ∀ operand ∈ line.body.operands, operand.SoundLiterals equates := by
  intro line hline
  obtain ⟨location, piece, hread⟩ := readSource_mem h hline
  exact readLine_sound hread

end Asm65816
