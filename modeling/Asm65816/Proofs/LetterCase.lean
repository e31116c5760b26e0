import Asm65816.Proofs.DefinedNames
import Asm65816.Proofs.LinePieces

/-!
# Letter case and pieces

Whether a character goes on with a piece does not depend on its letter case, but for the second
character of the mark of a number or a macro argument and the `p` in front of a quoted text. Texts
that are equal up to letter case and have the same first characters are cut behind the same number
of characters.
-/

namespace Asm65816

/-! ## Characters -/

/-- A letter of ASCII in its other case. -/
def otherCase (c : Char) : Char := if c.isLower then c.toUpper else c.toLower

/-- What holds of every character of ASCII and of every one that has one case holds of all. -/
theorem forall_char {motive : Char → Prop}
    (ascii : ∀ code : Fin 0x80, motive (Char.ofNat code))
    (single : ∀ c : Char, c.toUpper = c → c.toLower = c → motive c) (c : Char) : motive c := by
  by_cases hcode : c.toNat < 0x80
  · have hc := ascii ⟨c.toNat, hcode⟩
    rwa [Char.ofNat_toNat] at hc
  · have hval : c.toNat = c.val.toNat := rfl
    have hbeyond (first last : UInt32) (hlast : last.toNat < 0x80) :
        ¬(first ≤ c.val ∧ c.val ≤ last) := by
      intro h
      have hle := UInt32.le_iff_toNat_le.mp h.2
      omega
    exact single c (dif_neg (hbeyond _ _ (by decide))) (dif_neg (hbeyond _ _ (by decide)))

theorem otherCase_of_single {c : Char} (hupper : c.toUpper = c) (hlower : c.toLower = c) :
    otherCase c = c := by
  rw [otherCase, hupper, hlower, ite_self]

theorem toUpper_otherCase (c : Char) : (otherCase c).toUpper = c.toUpper := by
  induction c using forall_char with
  | ascii code =>
    revert code
    decide
  | single c hupper hlower => rw [otherCase_of_single hupper hlower]

theorem utf8Size_otherCase (c : Char) : (otherCase c).utf8Size = c.utf8Size := by
  induction c using forall_char with
  | ascii code =>
    revert code
    decide
  | single c hupper hlower => rw [otherCase_of_single hupper hlower]

/-- Only letters have another case, which is that of a letter. -/
theorem toUpper_cases (c : Char) :
    c.toUpper = c ∨ c.isAlpha = true ∧ c.toUpper.isAlpha = true := by
  induction c using forall_char with
  | ascii code =>
    revert code
    decide
  | single c hupper => exact .inl hupper

theorem toUpper_eq_sign {c sign : Char} (h : sign.isAlpha = false) :
    c.toUpper = sign ↔ c = sign := by
  rcases toUpper_cases c with hc | ⟨hc, hupper⟩
  · rw [hc]
  · constructor
    · rintro rfl
      cases h.symm.trans hupper
    · rintro rfl
      cases h.symm.trans hc

/-- Characters that differ in their letter case only are letters or equal. -/
theorem isAlpha_of_toUpper_eq {c other : Char} (h : other.toUpper = c.toUpper)
    (hne : other ≠ c) : c.isAlpha = true ∧ other.isAlpha = true := by
  rcases toUpper_cases c with hc | ⟨hc, hupper⟩
  · rcases toUpper_cases other with hother | ⟨hother, hupper⟩
    · exact absurd (hother.symm.trans (h.trans hc)) hne
    · rw [h, hc] at hupper
      exact ⟨hupper, hother⟩
  · rcases toUpper_cases other with hother | ⟨hother, -⟩
    · rw [← h, hother] at hupper
      exact ⟨hc, hupper⟩
    · exact ⟨hc, hother⟩

/-! ## Texts -/

/-- The texts are equal up to letter case. -/
def SameCaseless (text text' : List Char) : Prop :=
  text'.map Char.toUpper = text.map Char.toUpper

/-- A function of characters that does not depend on letter case. -/
def CharCaseless (accepts : Char → Bool) : Prop := ∀ c : Char, accepts c.toUpper = accepts c

theorem CharCaseless.of_ascii {accepts : Char → Bool}
    (h : ∀ code : Fin 0x80, accepts (Char.ofNat code).toUpper = accepts (Char.ofNat code)) :
    CharCaseless accepts := by
  intro c
  induction c using forall_char with
  | ascii code => exact h code
  | single c hupper => rw [hupper]

theorem isSpacing_caseless : CharCaseless isSpacing := .of_ascii (by decide)

theorem endsLine_caseless : CharCaseless endsLine := .of_ascii (by decide)

theorem isNameChar_caseless : CharCaseless isNameChar := .of_ascii (by decide)

theorem isDigitIn_caseless {base : Nat} (h : base ∈ [2, 8, 10, 16]) :
    CharCaseless (isDigitIn base) := by
  have hall : ∀ base ∈ [2, 8, 10, 16], ∀ code : Fin 0x80,
      isDigitIn base (Char.ofNat code).toUpper = isDigitIn base (Char.ofNat code) := by
    decide
  exact .of_ascii (hall base h)

/-- A function of texts that does not depend on letter case. -/
def TextCaseless {α : Type} (measure : List Char → α) : Prop :=
  ∀ text, measure (text.map Char.toUpper) = measure text

theorem TextCaseless.eq {α : Type} {measure : List Char → α} (h : TextCaseless measure)
    {text text' : List Char} (hsame : SameCaseless text text') : measure text' = measure text := by
  rw [← h text', hsame, h text]

theorem runLength_caseless {accepts : Char → Bool} (h : CharCaseless accepts) :
    TextCaseless (runLength accepts) := by
  intro text
  rw [runLength, runLength, List.takeWhile_map, List.length_map]
  exact congrArg (fun accepts => (text.takeWhile accepts).length) (funext h)

theorem runAfter_caseless {accepts : Char → Bool} (h : CharCaseless accepts) (extra : Nat) :
    TextCaseless (runAfter extra accepts) := by
  intro text
  rw [runAfter, runAfter, runLength_caseless h text]

theorem startsHex_caseless : TextCaseless startsHex := by
  intro text
  cases text with
  | nil => rfl
  | cons c rest => exact isDigitIn_caseless (by decide) c

theorem hexGroupsLength_caseless : TextCaseless hexGroupsLength := by
  intro text
  induction text with
  | nil => rfl
  | cons c rest ih =>
    have hdigit : isDigitIn 16 c.toUpper = isDigitIn 16 c := isDigitIn_caseless (by decide) c
    have hcolon : c.toUpper = ':' ↔ c = ':' := toUpper_eq_sign rfl
    simp only [List.map_cons, hexGroupsLength, ih, hdigit, startsHex_caseless rest, hcolon]

theorem quoteLength?_caseless (afterBackslash : Bool) :
    TextCaseless (quoteLength? afterBackslash) := by
  intro text
  induction text generalizing afterBackslash with
  | nil => rfl
  | cons c rest ih =>
    have hslash : (c.toUpper == '\\') = (c == '\\') := by
      rw [Bool.eq_iff_iff, beq_iff_eq, beq_iff_eq, toUpper_eq_sign rfl]
    have hquote : c.toUpper = '"' ↔ c = '"' := toUpper_eq_sign rfl
    simp only [List.map_cons, quoteLength?, ih, endsLine_caseless c, hslash, hquote]

theorem isPrefixOf_caseless {signs : List Char} (h : ∀ sign ∈ signs, sign.isAlpha = false) :
    TextCaseless signs.isPrefixOf := by
  intro text
  induction signs generalizing text with
  | nil => rfl
  | cons sign others ih =>
    cases text with
    | nil => rfl
    | cons c rest =>
      obtain ⟨hsign, hothers⟩ := List.forall_mem_cons.mp h
      have hhead : (sign == c.toUpper) = (sign == c) := by
        rw [Bool.eq_iff_iff, beq_iff_eq, beq_iff_eq, eq_comm, toUpper_eq_sign hsign, eq_comm]
      rw [List.map_cons, List.isPrefixOf_cons_cons, List.isPrefixOf_cons_cons, ih hothers, hhead]

theorem longestPunct?_caseless : TextCaseless longestPunct? := by
  intro text
  have hall : ∀ spelling ∈ Punct.spellings, (spelling.1.all fun sign => !sign.isAlpha) = true := by
    decide +kernel
  refine List.foldl_ext _ _ _ fun best candidate hcandidate => ?_
  have hsigns : ∀ sign ∈ candidate.1, sign.isAlpha = false := fun sign hsign =>
    (Bool.not_eq_true' _).mp (List.all_eq_true.mp (hall candidate hcandidate) sign hsign)
  simp only [isPrefixOf_caseless hsigns text]

theorem SameCaseless.cons_iff {c c' : Char} {rest rest' : List Char} :
    SameCaseless (c :: rest) (c' :: rest') ↔ c'.toUpper = c.toUpper ∧ SameCaseless rest rest' := by
  rw [SameCaseless, List.map_cons, List.map_cons, List.cons.injEq]
  rfl

/-- Texts that are equal up to letter case start with the same sign. -/
theorem SameCaseless.head_eq_sign {text text' : List Char} (h : SameCaseless text text')
    {sign : Char} (hsign : sign.isAlpha = false) :
    text'.head? = some sign ↔ text.head? = some sign := by
  cases text with
  | nil =>
    obtain rfl := List.map_eq_nil_iff.mp h
    exact Iff.rfl
  | cons c rest =>
    obtain ⟨c', rest', rfl, hc, -⟩ := List.map_eq_cons_iff.mp h
    rw [List.head?_cons, List.head?_cons, Option.some_inj, Option.some_inj,
      ← toUpper_eq_sign hsign, hc, toUpper_eq_sign hsign]

/-! ## Pieces -/

namespace TokenClass

/-- Any other macro argument than those of a letter is a number. -/
theorem argument_reach {d : Char} (hletter : d ∉ ['L', 'i', 'v']) (text : List Char) :
    argument.reach ('\\' :: d :: text) = runAfter 1 (isDigitIn 10) (d :: text) := by
  generalize hinput : '\\' :: d :: text = input
  unfold reach
  split
  case h_16 rest =>
    cases hinput
    split
    case h_1 | h_2 | h_3 => simp_all
    case h_4 => rfl
  case h_17 hnone => exact absurd hinput.symm (hnone _ rfl)
  all_goals contradiction

/-- A text that starts with a letter starts with a name, unless it is quoted. -/
theorem reach_letter {c : Char} {text : List Char} (hc : c.isAlpha = true)
    (hquote : text.head? ≠ some '"') (kind : TokenClass) :
    kind.reach (c :: text) = if kind = name then 1 + runLength isNameChar text else 0 := by
  have hname : startsName c = true := by
    rw [startsName, hc]
    rfl
  split
  case isTrue hkind =>
    subst hkind
    exact if_pos hname
  case isFalse hkind =>
    cases hstarts : kind.startsWith c with
    | false => exact reach_eq_zero _ hstarts
    | true =>
      rcases startsWith_of_name hname hkind hstarts with ⟨rfl, rfl⟩ | ⟨rfl, rfl⟩
      · exact petsciiText_reach_eq_zero fun d hd heq => hquote (heq ▸ hd)
      · cases hc

section Behind

variable {rest rest' : List Char} (h : SameCaseless rest rest')

include h

theorem localName_reach_caseless :
    localName.reach ('@' :: rest') = localName.reach ('@' :: rest) := by
  have hrun := (runLength_caseless isNameChar_caseless).eq h
  cases hcount : runLength isNameChar rest with
  | zero =>
    rw [reach, reach, hrun, hcount]
    rfl
  | succ count =>
    rw [hcount] at hrun
    have hdrop : SameCaseless (rest.drop (count + 1)) (rest'.drop (count + 1)) := by
      rw [SameCaseless, List.map_drop, List.map_drop, h]
    rcases localName_reach hcount with ⟨direction, tail, htail, hsign, hreach⟩ | ⟨hnone, hreach⟩
    · have hhead : (rest'.drop (count + 1)).head? = some direction := by
        rw [hdrop.head_eq_sign (by rcases hsign with rfl | rfl <;> rfl), htail, List.head?_cons]
      rcases localName_reach hrun with ⟨-, -, -, -, hreach'⟩ | ⟨hnone', -⟩
      · rw [hreach, hreach']
      · obtain ⟨hplus, hminus⟩ := hnone' direction hhead
        rcases hsign with rfl | rfl
        · exact absurd rfl hplus
        · exact absurd rfl hminus
    · rcases localName_reach hrun with ⟨direction, tail, htail, hsign, -⟩ | ⟨-, hreach'⟩
      · have hhead : (rest.drop (count + 1)).head? = some direction := by
          rw [← hdrop.head_eq_sign (by rcases hsign with rfl | rfl <;> rfl), htail,
            List.head?_cons]
        obtain ⟨hplus, hminus⟩ := hnone direction hhead
        rcases hsign with rfl | rfl
        · exact absurd rfl hplus
        · exact absurd rfl hminus
      · rw [hreach, hreach']

/-- Behind a first character that marks no number and no argument, letter case does not count. -/
theorem reach_plain {c : Char} (hzero : c ≠ '0') (hslash : c ≠ '\\') (kind : TokenClass) :
    kind.reach (c :: rest') = kind.reach (c :: rest) := by
  have hline : CharCaseless fun c => !endsLine c := fun c => congrArg _ (endsLine_caseless c)
  have hsame : SameCaseless (c :: rest) (c :: rest') := SameCaseless.cons_iff.mpr ⟨rfl, h⟩
  cases hstarts : kind.startsWith c with
  | false => rw [reach_eq_zero _ hstarts, reach_eq_zero _ hstarts]
  | true =>
    cases kind with
    | blank => exact (runLength_caseless isSpacing_caseless).eq hsame
    | comment =>
      rcases Bool.or_eq_true_iff.mp hstarts with hmark | hmark
      · obtain rfl : c = ';' := eq_of_beq hmark
        change 1 + runLength _ rest' = 1 + runLength _ rest
        rw [(runLength_caseless hline).eq h]
      · obtain rfl : c = '/' := eq_of_beq hmark
        by_cases hsecond : rest.head? = some '/'
        · obtain ⟨content, rfl⟩ := List.head?_eq_some_iff.mp hsecond
          obtain ⟨content', rfl⟩ := List.head?_eq_some_iff.mp ((h.head_eq_sign rfl).mpr hsecond)
          change 2 + runLength _ content' = 2 + runLength _ content
          rw [(runLength_caseless hline).eq (SameCaseless.cons_iff.mp h).2]
        · have hsecond' := mt (h.head_eq_sign rfl).mp hsecond
          rw [comment_reach_eq_zero fun c hc heq => hsecond' (heq ▸ hc),
            comment_reach_eq_zero fun c hc heq => hsecond (heq ▸ hc)]
    | punct =>
      change (longestPunct? _).elim _ _ = (longestPunct? _).elim _ _
      rw [longestPunct?_caseless.eq hsame]
    | text =>
      obtain rfl : c = '"' := eq_of_beq hstarts
      change (quoteLength? false rest').elim 0 _ = (quoteLength? false rest).elim 0 _
      rw [(quoteLength?_caseless false).eq h]
    | petsciiText =>
      obtain rfl : c = 'p' := eq_of_beq hstarts
      by_cases hquote : rest.head? = some '"'
      · obtain ⟨content, rfl⟩ := List.head?_eq_some_iff.mp hquote
        obtain ⟨content', rfl⟩ := List.head?_eq_some_iff.mp ((h.head_eq_sign rfl).mpr hquote)
        change (quoteLength? false content').elim 0 _ = (quoteLength? false content).elim 0 _
        rw [(quoteLength?_caseless false).eq (SameCaseless.cons_iff.mp h).2]
      · have hquote' := mt (h.head_eq_sign rfl).mp hquote
        rw [petsciiText_reach_eq_zero fun c hc heq => hquote' (heq ▸ hc),
          petsciiText_reach_eq_zero fun c hc heq => hquote (heq ▸ hc)]
    | hexadecimal =>
      obtain rfl : c = '$' := by simpa [startsWith, hzero] using hstarts
      change (if startsHex rest' then 1 + hexGroupsLength rest' else 0) =
        if startsHex rest then 1 + hexGroupsLength rest else 0
      rw [startsHex_caseless.eq h, hexGroupsLength_caseless.eq h]
    | octal =>
      obtain rfl : c = '&' := by simpa [startsWith, hzero] using hstarts
      exact (runAfter_caseless (isDigitIn_caseless (by decide)) 1).eq h
    | binary =>
      obtain rfl : c = '%' := by simpa [startsWith, hzero] using hstarts
      exact (runAfter_caseless (.of_ascii (by decide)) 1).eq h
    | decimal => exact (runLength_caseless (isDigitIn_caseless (by decide))).eq hsame
    | name =>
      change (if startsName c then 1 + runLength isNameChar rest' else 0) =
        if startsName c then 1 + runLength isNameChar rest else 0
      rw [(runLength_caseless isNameChar_caseless).eq h]
    | localName =>
      obtain rfl : c = '@' := eq_of_beq hstarts
      exact localName_reach_caseless h
    | argument => exact absurd (eq_of_beq hstarts) hslash

/-- Behind the first two characters letter case does not count. -/
theorem reach_marked (c d : Char) (kind : TokenClass) :
    kind.reach (c :: d :: rest') = kind.reach (c :: d :: rest) := by
  have hsame : SameCaseless (d :: rest) (d :: rest') := SameCaseless.cons_iff.mpr ⟨rfl, h⟩
  by_cases hzero : c = '0'
  · subst hzero
    have hother {radix : Radix} {letter : Char} (hmark : radix.mark = ['0', letter])
        (hletter : d ≠ letter) :
        radix.tokenClass.reach ('0' :: d :: rest') = radix.tokenClass.reach ('0' :: d :: rest) := by
      have hhead (text : List Char) : ∀ c ∈ (d :: text).head?, c ≠ letter := by
        intro c hc
        cases hc
        exact hletter
      rw [Radix.reach_eq_zero hmark (hhead _), Radix.reach_eq_zero hmark (hhead _)]
    have hnumber (radix : Radix) : radix.tokenClass.reach ('0' :: d :: rest') =
        radix.tokenClass.reach ('0' :: d :: rest) := by
      cases radix with
      | decimal =>
        exact (runLength_caseless (isDigitIn_caseless (by decide))).eq
          (SameCaseless.cons_iff.mpr ⟨rfl, hsame⟩)
      | hexadecimal =>
        by_cases hletter : d = 'x'
        · subst hletter
          change (if startsHex rest' then 2 + hexGroupsLength rest' else 0) =
            if startsHex rest then 2 + hexGroupsLength rest else 0
          rw [startsHex_caseless.eq h, hexGroupsLength_caseless.eq h]
        · exact hother rfl hletter
      | octal =>
        by_cases hletter : d = 'o'
        · subst hletter
          exact (runAfter_caseless (isDigitIn_caseless (by decide)) 2).eq h
        · exact hother rfl hletter
      | binary =>
        by_cases hletter : d = 'b'
        · subst hletter
          exact (runAfter_caseless (.of_ascii (by decide)) 2).eq h
        · exact hother rfl hletter
    cases hstarts : kind.startsWith '0' with
    | false => rw [reach_eq_zero _ hstarts, reach_eq_zero _ hstarts]
    | true =>
      rcases startsWith_of_digit (by decide) hstarts with rfl | ⟨-, radix, -, -, rfl⟩
      · exact hnumber .decimal
      · exact hnumber radix
  · by_cases hslash : c = '\\'
    · subst hslash
      by_cases hother : kind = argument
      · subst hother
        by_cases hletter : d ∈ ['L', 'i', 'v']
        · simp only [List.mem_cons, List.not_mem_nil, or_false] at hletter
          rcases hletter with rfl | rfl | rfl <;> rfl
        · rw [argument_reach hletter, argument_reach hletter]
          exact (runAfter_caseless (isDigitIn_caseless (by decide)) 1).eq hsame
      · rw [reach_eq_zero_of_marked (by decide) hother, reach_eq_zero_of_marked (by decide) hother]
    · exact reach_plain hsame hzero hslash kind

end Behind

/-- A class reaches as far into texts that are equal up to letter case, when their first characters
are no marks that are told by it. -/
theorem reach_caseless {text text' : List Char} (hsame : SameCaseless text text')
    (hfirst : text'.head? = text.head? ∨ text[1]? ≠ some '"')
    (hsecond : text'[1]? = text[1]? ∨ text.head? ≠ some '0' ∧ text.head? ≠ some '\\')
    (kind : TokenClass) : kind.reach text' = kind.reach text := by
  cases text with
  | nil =>
    obtain rfl := List.map_eq_nil_iff.mp hsame
    rfl
  | cons c rest =>
    obtain ⟨c', rest', rfl, hc, hrest⟩ := List.map_eq_cons_iff.mp hsame
    rw [List.getElem?_cons_succ, ← List.head?_eq_getElem?] at hfirst hsecond
    rw [List.getElem?_cons_succ, ← List.head?_eq_getElem?] at hsecond
    by_cases hsingle : c' = c
    · subst hsingle
      rcases hsecond with hsecond | ⟨hzero, hslash⟩
      · cases rest with
        | nil =>
          obtain rfl := List.map_eq_nil_iff.mp hrest
          rfl
        | cons d others =>
          obtain ⟨d', others', rfl, -, hothers⟩ := List.map_eq_cons_iff.mp hrest
          obtain rfl := Option.some.inj hsecond
          exact reach_marked hothers c' d' kind
      · exact reach_plain hrest (fun heq => hzero (heq ▸ rfl)) (fun heq => hslash (heq ▸ rfl)) kind
    · obtain ⟨hletter, hletter'⟩ := isAlpha_of_toUpper_eq hc hsingle
      have hquote := hfirst.resolve_left fun heq => hsingle (Option.some.inj heq)
      have hquote' := mt (SameCaseless.head_eq_sign hrest rfl).mp hquote
      rw [reach_letter hletter hquote, reach_letter hletter' hquote',
        (runLength_caseless isNameChar_caseless).eq hrest]

/-- The class that reaches furthest is the same one. -/
theorem furthest?_caseless {text text' : List Char} (hsame : SameCaseless text text')
    (hfirst : text'.head? = text.head? ∨ text[1]? ≠ some '"')
    (hsecond : text'[1]? = text[1]? ∨ text.head? ≠ some '0' ∧ text.head? ≠ some '\\') :
    furthest? text' = furthest? text := by
  simp only [furthest?, reach_caseless hsame hfirst hsecond]

end TokenClass

end Asm65816
