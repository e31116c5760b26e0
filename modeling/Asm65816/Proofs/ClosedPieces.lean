import Asm65816.Proofs.LongestPieces

/-!
# Pieces that are closed

Numbers, quoted texts and names end where a blank, a comma, a closing bracket or the end of the
line stands behind them. The text of such a token is then one piece, and is read as the token.
-/

namespace Asm65816

/-! ## The end of a piece -/

/-- The characters that stand behind an operand or one of its parts. -/
def closers : List Char := [' ', ',', ')', ']']

/-- A text in front of which an operand ends. -/
def Closes (rest : List Char) : Prop := ∀ c ∈ rest.head?, c ∈ closers

section Runs

variable {accepts : Char → Bool} {word rest : List Char}

/-- What closes a piece does not go on with it. -/
theorem Closes.stops (h : Closes rest) (hclosers : closers.any accepts = false) :
    ∀ c ∈ rest.head?, accepts c = false :=
  fun c hc => Bool.eq_false_iff.mpr (List.any_eq_false.mp hclosers c (h c hc))

/-- A run ends where its characters do. -/
theorem runLength_append (hword : ∀ c ∈ word, accepts c = true)
    (hrest : ∀ c ∈ rest.head?, accepts c = false) :
    runLength accepts (word ++ rest) = word.length := by
  rw [runLength, List.takeWhile_append_of_pos hword, List.length_append]
  cases rest with
  | nil => rfl
  | cons c others =>
    have hnone := TokenClass.runLength_eq_zero others (hrest c rfl)
    rw [runLength] at hnone
    rw [hnone, Nat.add_zero]

/-- A run that is not empty is counted with what stands in front of it. -/
theorem runAfter_append (extra : Nat) (hsome : word ≠ []) (hword : ∀ c ∈ word, accepts c = true)
    (hrest : ∀ c ∈ rest.head?, accepts c = false) :
    runAfter extra accepts (word ++ rest) = extra + word.length := by
  have hpos := List.length_pos_iff.mpr hsome
  rw [runAfter, runLength_append hword hrest]
  split
  case h_1 hzero => omega
  case h_2 => rfl

/-- A run is the part of a text that it counts. -/
theorem take_runLength (text : List Char) :
    text.take (runLength accepts text) = text.takeWhile accepts :=
  (List.prefix_iff_eq_take.mp (List.takeWhile_prefix accepts)).symm

theorem length_take_runLength (text : List Char) :
    (text.take (runLength accepts text)).length = runLength accepts text := by
  rw [take_runLength]
  rfl

theorem accepts_of_mem_run {c : Char} {text : List Char}
    (h : c ∈ text.take (runLength accepts text)) : accepts c = true := by
  rw [take_runLength] at h
  exact List.all_eq_true.mp List.all_takeWhile c h

end Runs

/-! ## Blanks -/

/-- A blank is a piece of its own where no other one follows. -/
theorem nextPiece_blank {rest : List Char} (hrest : ∀ c ∈ rest.head?, isSpacing c = false) :
    nextPiece (' ' :: rest) = (1, .skipped) := by
  have hreach : TokenClass.blank.reach ([' '] ++ rest) = 1 := by
    refine runLength_append (fun c hc => ?_) hrest
    rw [List.mem_singleton.mp hc]
    rfl
  refine nextPiece_eq (List.cons_ne_nil _ _) hreach fun other hother => ?_
  rw [List.singleton_append, TokenClass.reach_eq_zero_of_marked (by decide) hother]
  exact Nat.one_pos

/-! ## Numbers -/

/-- The decimal digits. -/
def decimalDigits : List Char := ['0', '1', '2', '3', '4', '5', '6', '7', '8', '9']

theorem mem_decimalDigits {base : Nat} (hbase : base ≤ 10) {c : Char}
    (h : isDigitIn base c = true) : c ∈ decimalDigits := by
  have hrange : '0' ≤ c ∧ c ≤ '9' := by
    by_contra hnone
    unfold isDigitIn digitValue? at h
    dsimp only at h
    rw [if_neg hnone, if_neg] at h
    · cases h
    · split
      · omega
      · split
        · omega
        · omega
  have hcode : 48 ≤ c.toNat ∧ c.toNat ≤ 57 := hrange
  have hdigit : c.toNat - 48 < 10 := by omega
  have hchar : c = Nat.digitChar (c.toNat - 48) := by
    apply Char.toNat_inj.mp
    rw [Nat.toNat_digitChar_of_lt_ten hdigit]
    omega
  have hall : ∀ digit < 10, Nat.digitChar digit ∈ decimalDigits := by decide
  rw [hchar]
  exact hall _ hdigit

/-- Numbers with a mark are told from each other by its letter. -/
theorem Radix.reach_eq_zero {radix : Radix} {letter : Char} (hmark : radix.mark = ['0', letter])
    {rest : List Char} (h : ∀ c ∈ rest.head?, c ≠ letter) :
    radix.tokenClass.reach ('0' :: rest) = 0 := by
  generalize htext : '0' :: rest = text
  cases radix with
  | decimal => cases hmark
  | _ =>
    cases hmark
    unfold tokenClass TokenClass.reach
    dsimp only
    split
    case h_17 => rfl
    all_goals first | contradiction | cases htext
    all_goals exact absurd rfl (h _ rfl)

/-- Groups of hexadecimal digits end where their digits do. -/
theorem hexGroupsLength_append {digits rest : List Char}
    (hdigits : ∀ c ∈ digits, isDigitIn 16 c = true)
    (hrest : ∀ c ∈ rest.head?, (isDigitIn 16 c || c == ':') = false) :
    hexGroupsLength (digits ++ rest) = digits.length := by
  induction digits with
  | nil =>
    cases rest with
    | nil => rfl
    | cons c others =>
      obtain ⟨hdigit, hcolon⟩ := Bool.or_eq_false_iff.mp (hrest c rfl)
      rw [List.nil_append, hexGroupsLength, if_neg (Bool.eq_false_iff.mp hdigit),
        if_neg fun h => beq_eq_false_iff_ne.mp hcolon h.1]
      rfl
  | cons c others ih =>
    rw [List.cons_append, hexGroupsLength, if_pos (hdigits c List.mem_cons_self),
      ih fun c hc => hdigits c (List.mem_cons_of_mem _ hc), Nat.add_comm]
    rfl

/-- The class of a literal reaches to the end of its text. -/
theorem Number.Literal.reach {n : Number} (h : n.Literal) {rest : List Char} (hrest : Closes rest) :
    n.radix.tokenClass.reach (n.render.toList ++ rest) = n.render.toList.length := by
  have hdigits : ∀ c ∈ n.digits, isDigitIn n.radix.base c = true := fun c hc =>
    isDigitIn_of_mem_digits hc
  have hsome := n.digits_ne_nil
  rw [render_toList h.nonneg, List.append_assoc, List.length_append]
  generalize n.digits = digits at hdigits hsome
  cases hradix : n.radix with
  | decimal =>
    rw [hradix] at hdigits
    change runLength (isDigitIn 10) (digits ++ rest) = 0 + digits.length
    rw [Nat.zero_add]
    exact runLength_append hdigits (hrest.stops (by decide))
  | octal =>
    rw [hradix] at hdigits
    change runAfter 2 (isDigitIn 8) (digits ++ rest) = 2 + digits.length
    exact runAfter_append 2 hsome hdigits (hrest.stops (by decide))
  | binary =>
    rw [hradix] at hdigits
    change runAfter 2 (fun c => isDigitIn 2 c || c == '_') (digits ++ rest) = 2 + digits.length
    refine runAfter_append 2 hsome (fun c hc => ?_) (hrest.stops (by decide))
    exact Bool.or_eq_true_iff.mpr (.inl (hdigits c hc))
  | hexadecimal =>
    rw [hradix] at hdigits
    have hlength := hexGroupsLength_append hdigits (hrest.stops (by decide))
    have hstarts : startsHex (digits ++ rest) = true := by
      obtain ⟨c, others, hcons⟩ := List.exists_cons_of_ne_nil hsome
      rw [hcons]
      exact hdigits c (hcons ▸ List.mem_cons_self)
    change (if startsHex (digits ++ rest) then 2 + hexGroupsLength (digits ++ rest) else 0) =
      2 + digits.length
    rw [if_pos hstarts, hlength]

/-- A digit starts a decimal number, and nought the mark of another one. -/
theorem startsWith_of_digit {c : Char} (hc : c ∈ decimalDigits) {other : TokenClass}
    (h : other.startsWith c = true) :
    other = .decimal ∨
      c = '0' ∧ ∃ radix letter, Radix.mark radix = ['0', letter] ∧ other = radix.tokenClass := by
  have hall : ∀ c ∈ decimalDigits, ∀ other ∈ TokenClass.all, other.startsWith c = true →
      other = .decimal ∨ c = '0' ∧ (other = .binary ∨ other = .octal ∨ other = .hexadecimal) :=
    List.all_iff_forall_prop.mp (by decide)
  refine (hall c hc other other.mem_all h).imp_right fun ⟨hnought, hother⟩ => ⟨hnought, ?_⟩
  rcases hother with rfl | rfl | rfl
  · exact ⟨.binary, 'b', rfl, rfl⟩
  · exact ⟨.octal, 'o', rfl, rfl⟩
  · exact ⟨.hexadecimal, 'x', rfl, rfl⟩

/-- No class but that of decimal numbers reaches into a text that starts with a digit, unless the
letter of its mark follows. -/
theorem reach_eq_zero_of_digit {c : Char} (hc : c ∈ decimalDigits) {rest : List Char}
    {other : TokenClass} (hother : other ≠ .decimal)
    (hletter : ∀ radix letter, Radix.mark radix = ['0', letter] → other = radix.tokenClass →
      ∀ d ∈ rest.head?, d ≠ letter) : other.reach (c :: rest) = 0 := by
  cases hstarts : other.startsWith c with
  | false => exact TokenClass.reach_eq_zero _ hstarts
  | true =>
    rcases startsWith_of_digit hc hstarts with hdecimal | ⟨rfl, radix, letter, hmark, rfl⟩
    · exact absurd hdecimal hother
    · exact Radix.reach_eq_zero hmark (hletter radix letter hmark rfl)

/-- The letter of a mark is no digit, and closes no number. -/
theorem Radix.letter_of_mark {radix : Radix} {letter : Char} (hmark : radix.mark = ['0', letter]) :
    isDigitIn 10 letter = false ∧ letter ∉ closers := by
  cases radix with
  | decimal => cases hmark
  | _ =>
    cases hmark
    exact ⟨rfl, by decide⟩

theorem Radix.mark_injective {first second : Radix} (h : first.mark = second.mark) :
    first = second := by
  cases first <;> cases second <;> first | rfl | cases h

/-- Other classes than that of decimal numbers do not reach into decimal digits. -/
theorem reach_decimal_eq_zero {digits rest : List Char} (hsome : digits ≠ [])
    (hdigits : ∀ c ∈ digits, isDigitIn 10 c = true) (hrest : Closes rest) {other : TokenClass}
    (hother : other ≠ .decimal) : other.reach (digits ++ rest) = 0 := by
  obtain ⟨c, others, rfl⟩ := List.exists_cons_of_ne_nil hsome
  have hfirst := mem_decimalDigits (Nat.le_refl 10) (hdigits c List.mem_cons_self)
  refine reach_eq_zero_of_digit hfirst hother fun radix letter hmark _ d hd => ?_
  obtain ⟨hdigit, hcloser⟩ := Radix.letter_of_mark hmark
  rintro rfl
  cases others with
  | nil => exact hcloser (hrest _ hd)
  | cons second more =>
    cases hd
    have hsecond := hdigits d (List.mem_cons_of_mem _ List.mem_cons_self)
    cases hdigit.symm.trans hsecond

/-- Other classes than that of a mark reach no further than to its letter. -/
theorem reach_marked_le_one {radix : Radix} {letter : Char} (hmark : radix.mark = ['0', letter])
    (rest : List Char) {other : TokenClass} (hother : other ≠ radix.tokenClass) :
    other.reach ('0' :: letter :: rest) ≤ 1 := by
  by_cases hdecimal : other = .decimal
  · subst hdecimal
    have hnought : ∀ c ∈ ['0'], isDigitIn 10 c = true := List.forall_mem_singleton.mpr rfl
    have hreach : runLength (isDigitIn 10) (['0'] ++ letter :: rest) = 1 := by
      refine runLength_append hnought fun c hc => ?_
      cases hc
      exact (Radix.letter_of_mark hmark).1
    exact Nat.le_of_eq hreach
  · have hzero : other.reach ('0' :: letter :: rest) = 0 := by
      refine reach_eq_zero_of_digit (by decide) hdecimal fun found second hfound hclass d hd => ?_
      cases hd
      rintro rfl
      exact hother (Radix.mark_injective (hfound.trans hmark.symm) ▸ hclass)
    exact hzero ▸ Nat.zero_le 1

/-- Other classes than its own do not reach as far into the text of a literal. -/
theorem Number.Literal.reach_lt {n : Number} (h : n.Literal) {rest : List Char}
    (hrest : Closes rest) {other : TokenClass} (hother : other ≠ n.radix.tokenClass) :
    other.reach (n.render.toList ++ rest) < n.render.toList.length := by
  have hsome := n.digits_ne_nil
  have hpos := List.length_pos_iff.mpr hsome
  have hdigits : ∀ c ∈ n.digits, isDigitIn n.radix.base c = true := fun c hc =>
    isDigitIn_of_mem_digits hc
  rw [render_toList h.nonneg, List.length_append, List.append_assoc]
  generalize n.digits = digits at *
  cases hradix : n.radix with
  | decimal =>
    rw [hradix] at hother hdigits
    have hzero := reach_decimal_eq_zero hsome hdigits hrest hother
    exact Nat.lt_of_le_of_lt (Nat.le_of_eq hzero) (Nat.lt_of_lt_of_le hpos (Nat.le_add_left _ _))
  | _ =>
    rw [hradix] at hother
    have hone := reach_marked_le_one rfl (digits ++ rest) hother
    refine Nat.lt_of_le_of_lt hone ?_
    exact Nat.lt_of_lt_of_le Nat.one_lt_two (Nat.le_add_right _ _)

/-- The text of a literal is one piece where it is closed. -/
theorem nextPiece_number {n : Number} (h : n.Literal) {rest : List Char} (hrest : Closes rest) :
    nextPiece (n.render.toList ++ rest) = (n.render.toList.length, .token (.number n)) := by
  rw [← h.read]
  refine nextPiece_eq ?_ (h.reach hrest) fun other hother => h.reach_lt hrest hother
  rw [Number.render_toList h.nonneg]
  exact List.append_ne_nil_of_right_ne_nil _ n.digits_ne_nil

/-! ## Quoted texts -/

/-- A content that can stand between quotes as it is. -/
def PlainContent (content : List Char) : Prop :=
  ∀ c ∈ content, c ≠ '"' ∧ c ≠ '\\' ∧ endsLine c = false

section Texts

variable {content rest : List Char}

theorem PlainContent.tail {c : Char} (h : PlainContent (c :: content)) : PlainContent content :=
  fun d hd => h d (List.mem_cons_of_mem c hd)

/-- A plain text is closed by the first quote. -/
theorem quoteLength?_append (h : PlainContent content) (rest : List Char) :
    quoteLength? false (content ++ '"' :: rest) = some (content.length + 1) := by
  induction content with
  | nil => rfl
  | cons c others ih =>
    obtain ⟨hquote, hescape, hends⟩ := h c List.mem_cons_self
    rw [List.cons_append, quoteLength?, if_neg (Bool.eq_false_iff.mp hends), if_neg hquote,
      beq_eq_false_iff_ne.mpr hescape, ih h.tail, Option.map_some, List.length_cons, Nat.add_comm]

/-- There is nothing to resolve in a plain text. -/
theorem unescapeQuotes_eq (h : PlainContent content) : unescapeQuotes content = content := by
  induction content with
  | nil => rfl
  | cons c others ih =>
    have hescape := (h c List.mem_cons_self).2.1
    rw [unescapeQuotes, ih h.tail]
    intro rest hc
    exact absurd hc hescape

theorem quotedContent_eq {content : String} (h : PlainContent content.toList)
    (opening : List Char) :
    quotedContent opening.length (opening ++ (content.toList ++ ['"'])) = content := by
  rw [quotedContent, List.drop_left, List.dropLast_concat, unescapeQuotes_eq h,
    String.ofList_toList]

/-- A plain text in quotes is one piece. -/
theorem nextPiece_text {content : String} (h : PlainContent content.toList) (rest : List Char) :
    nextPiece ('"' :: (content.toList ++ ['"']) ++ rest) =
      (content.toList.length + 2, .token (.text content false)) := by
  have hquoted := quoteLength?_append h rest
  have hread : TokenClass.text.read ('"' :: (content.toList ++ ['"'])) =
      .token (.text content false) :=
    congrArg (fun found => Reading.token (.text found false)) (quotedContent_eq h ['"'])
  have hlength : ('"' :: (content.toList ++ ['"'])).length = content.toList.length + 2 := by simp
  rw [← hlength, ← hread]
  refine nextPiece_eq (List.cons_ne_nil _ _) ?_ fun other hother => ?_
  · rw [hlength, List.cons_append, List.append_assoc, List.singleton_append]
    change (quoteLength? false (content.toList ++ '"' :: rest)).elim 0 (1 + ·) = _
    rw [hquoted, Option.elim_some]
    omega
  · rw [hlength, List.cons_append, TokenClass.reach_eq_zero_of_marked (by decide) hother]
    exact Nat.succ_pos _

/-- A plain text in quotes behind a `p` is one piece. -/
theorem nextPiece_petsciiText {content : String} (h : PlainContent content.toList)
    (rest : List Char) :
    nextPiece ('p' :: '"' :: (content.toList ++ ['"']) ++ rest) =
      (content.toList.length + 3, .token (.text content true)) := by
  have hquoted := quoteLength?_append h rest
  have hread : TokenClass.petsciiText.read ('p' :: '"' :: (content.toList ++ ['"'])) =
      .token (.text content true) :=
    congrArg (fun found => Reading.token (.text found true)) (quotedContent_eq h ['p', '"'])
  have hlength : ('p' :: '"' :: (content.toList ++ ['"'])).length = content.toList.length + 3 := by
    simp
  have hstarts : ∀ other ∈ TokenClass.all, other ≠ .petsciiText → other ≠ .name →
      other.startsWith 'p' = false := by
    decide
  rw [← hlength, ← hread]
  refine nextPiece_eq (List.cons_ne_nil _ _) ?_ fun other hother => ?_
  · rw [hlength, List.cons_append, List.cons_append, List.append_assoc, List.singleton_append]
    change (quoteLength? false (content.toList ++ '"' :: rest)).elim 0 (2 + ·) = _
    rw [hquoted, Option.elim_some]
    omega
  · rw [hlength, List.cons_append]
    by_cases hname : other = .name
    · -- As a name the letter stands alone.
      subst hname
      change 1 + runLength isNameChar ('"' :: (content.toList ++ ['"'] ++ rest)) < _
      rw [TokenClass.runLength_eq_zero _ (by decide)]
      omega
    · rw [TokenClass.reach_eq_zero _ (hstarts other other.mem_all hother hname)]
      exact Nat.succ_pos _

end Texts

end Asm65816
