import Asm65816.Proofs.WrittenTokens
import Mathlib.Computability.Language

/-!
# Patterns of tokens

Every class of text that a line is made of is a regular language. A class reaches as far into a text
as the longest start of it that belongs to the language, and nowhere if there is none.
-/

namespace Asm65816

open scoped Computability

/-! ## Regular languages -/

/-- The texts of one character of a kind. -/
def oneOf (accepts : Char → Bool) : Language Char := {text | ∃ c, accepts c = true ∧ text = [c]}

/-- The runs of characters of a kind, without the empty one. -/
def someOf (accepts : Char → Bool) : Language Char := oneOf accepts * (oneOf accepts)∗

section Languages

variable {accepts : Char → Bool} {language other : Language Char} {text word rest : List Char}

theorem mem_exactly : text ∈ ({word} : Language Char) ↔ text = word := Iff.rfl

theorem mem_marked : text ∈ {word} * language ↔ ∃ rest ∈ language, text = word ++ rest := by
  rw [Language.mem_mul]
  constructor
  · rintro ⟨mark, rfl, rest, hrest, rfl⟩
    exact ⟨rest, hrest, rfl⟩
  · rintro ⟨rest, hrest, rfl⟩
    exact ⟨word, rfl, rest, hrest, rfl⟩

/-- One more word in front of a row of words. -/
theorem append_mem_star (hword : word ∈ language) (hrest : rest ∈ language∗) :
    word ++ rest ∈ language∗ := by
  obtain ⟨words, rfl, hwords⟩ := Language.mem_kstar.mp hrest
  exact Language.join_mem_kstar (L := word :: words) (List.forall_mem_cons.mpr ⟨hword, hwords⟩)

/-- What holds of the empty text, and with one more word in front, holds of every row of words. -/
theorem star_induction {motive : List Char → Prop} (hnil : motive [])
    (happend : ∀ word ∈ language, ∀ rest, motive rest → motive (word ++ rest))
    (h : text ∈ language∗) : motive text := by
  obtain ⟨words, rfl, hwords⟩ := Language.mem_kstar.mp h
  clear h
  induction words with
  | nil => exact hnil
  | cons word others ih =>
    obtain ⟨hword, hothers⟩ := List.forall_mem_cons.mp hwords
    exact happend word hword _ (ih hothers)

theorem mem_star_oneOf : text ∈ (oneOf accepts)∗ ↔ ∀ c ∈ text, accepts c = true := by
  constructor
  · intro h
    refine star_induction (motive := fun text => ∀ c ∈ text, accepts c = true) nofun ?_ h
    rintro _ ⟨c, hc, rfl⟩ rest hrest
    exact List.forall_mem_cons.mpr ⟨hc, hrest⟩
  · intro h
    induction text with
    | nil => exact Language.nil_mem_kstar _
    | cons c rest ih =>
      obtain ⟨hc, hrest⟩ := List.forall_mem_cons.mp h
      have hword : [c] ∈ oneOf accepts := ⟨c, hc, rfl⟩
      exact append_mem_star hword (ih hrest)

theorem mem_oneOf_mul : text ∈ oneOf accepts * language ↔
    ∃ c rest, accepts c = true ∧ rest ∈ language ∧ text = c :: rest := by
  rw [Language.mem_mul]
  constructor
  · rintro ⟨_, ⟨c, hc, rfl⟩, rest, hrest, rfl⟩
    exact ⟨c, rest, hc, hrest, rfl⟩
  · rintro ⟨c, rest, hc, hrest, rfl⟩
    exact ⟨[c], ⟨c, hc, rfl⟩, rest, hrest, rfl⟩

theorem mem_someOf : text ∈ someOf accepts ↔ text ≠ [] ∧ ∀ c ∈ text, accepts c = true := by
  rw [someOf, mem_oneOf_mul]
  constructor
  · rintro ⟨c, rest, hc, hrest, rfl⟩
    exact ⟨List.cons_ne_nil c rest, List.forall_mem_cons.mpr ⟨hc, mem_star_oneOf.mp hrest⟩⟩
  · rintro ⟨hsome, hall⟩
    obtain ⟨c, rest, rfl⟩ := List.exists_cons_of_ne_nil hsome
    obtain ⟨hc, hrest⟩ := List.forall_mem_cons.mp hall
    exact ⟨c, rest, hc, mem_star_oneOf.mpr hrest, rfl⟩

end Languages

/-! ## The patterns -/

/-- What a quoted text is made of between its quotes: a quote behind a backslash, and any character
but a quote and the ends of a line. -/
def quotedItem : Language Char := {['\\', '"']} + oneOf fun c => !endsLine c && c != '"'

/-- Groups of hexadecimal digits with a colon between neighbours. -/
def hexGroups : Language Char := someOf (isDigitIn 16) * ({[':']} * someOf (isDigitIn 16))∗

/-- The letters of macro arguments. -/
def isArgumentLetter (c : Char) : Bool := c == 'L' || c == 'i' || c == 'v'

namespace TokenClass

/-- The texts that belong to a class. -/
def pattern : TokenClass → Language Char
  | blank => someOf isSpacing
  | comment => ({[';']} + {['/', '/']}) * (oneOf fun c => !endsLine c)∗
  | punct => {text | ∃ sign, (text, sign) ∈ Punct.spellings}
  | .text => {['"']} * (quotedItem∗ * {['"']})
  | petsciiText => {['p', '"']} * (quotedItem∗ * {['"']})
  | hexadecimal => ({['$']} + {['0', 'x']}) * hexGroups
  | octal => ({['&']} + {['0', 'o']}) * someOf (isDigitIn 8)
  | binary => ({['%']} + {['0', 'b']}) * someOf fun c => isDigitIn 2 c || c == '_'
  | decimal => someOf (isDigitIn 10)
  | name => oneOf startsName * (oneOf isNameChar)∗
  | localName => {['@']} * (someOf isNameChar * (1 + ({['+']} + {['-']})))
  | argument => {['\\']} * (someOf (isDigitIn 10) + oneOf isArgumentLetter)

end TokenClass

/-! ## The longest match -/

theorem runAfter_eq (extra : Nat) (accepts : Char → Bool) (text : List Char) :
    runAfter extra accepts text =
      if runLength accepts text = 0 then 0 else extra + runLength accepts text := by
  unfold runAfter
  split
  case h_1 hzero => rw [if_pos hzero]
  case h_2 count hcount => rw [if_neg hcount]

/-- The longest start of a text in a language has `count` characters; no start is in the language
when that is zero. -/
structure Munches (language : Language Char) (text : List Char) (count : Nat) : Prop where
  belongs : 0 < count → ∃ word rest, text = word ++ rest ∧ word.length = count ∧ word ∈ language
  longest : ∀ word rest, text = word ++ rest → word ∈ language → word ≠ [] ∧ word.length ≤ count

namespace Munches

variable {accepts : Char → Bool} {language other : Language Char} {text rest : List Char}
  {count more : Nat}

/-- Where no start is in the language. -/
theorem none (h : ∀ word rest, text = word ++ rest → word ∉ language) :
    Munches language text 0 where
  belongs hpos := absurd hpos (Nat.lt_irrefl 0)
  longest word rest htext hword := absurd hword (h word rest htext)

/-- The longer of two matches. -/
theorem or (h : Munches language text count) (hother : Munches other text more) :
    Munches (language + other) text (max count more) where
  belongs hpos := by
    rcases Nat.le_total count more with hle | hle
    · rw [Nat.max_eq_right hle] at hpos ⊢
      obtain ⟨word, rest, htext, hlength, hword⟩ := hother.belongs hpos
      exact ⟨word, rest, htext, hlength, .inr hword⟩
    · rw [Nat.max_eq_left hle] at hpos ⊢
      obtain ⟨word, rest, htext, hlength, hword⟩ := h.belongs hpos
      exact ⟨word, rest, htext, hlength, .inl hword⟩
  longest word rest htext hword := by
    rcases hword with hword | hword
    · obtain ⟨hsome, hle⟩ := h.longest word rest htext hword
      exact ⟨hsome, Nat.le_trans hle (Nat.le_max_left _ _)⟩
    · obtain ⟨hsome, hle⟩ := hother.longest word rest htext hword
      exact ⟨hsome, Nat.le_trans hle (Nat.le_max_right _ _)⟩

/-- A mark counts with the match behind it. -/
theorem behind (h : Munches language rest count) (mark : List Char) :
    Munches ({mark} * language) (mark ++ rest) (if count = 0 then 0 else mark.length + count) where
  belongs hpos := by
    split at hpos
    case isTrue => cases hpos
    case isFalse hsome =>
      obtain ⟨word, behind, rfl, rfl, hword⟩ := h.belongs (Nat.pos_of_ne_zero hsome)
      rw [if_neg hsome]
      exact ⟨mark ++ word, behind, (List.append_assoc _ _ _).symm, List.length_append,
        mem_marked.mpr ⟨word, hword, rfl⟩⟩
  longest word behind htext hword := by
    obtain ⟨tail, htail, rfl⟩ := mem_marked.mp hword
    rw [List.append_assoc, List.append_cancel_left_eq] at htext
    obtain ⟨hsome, hle⟩ := h.longest tail behind htext htail
    have hpos := List.length_pos_iff.mpr hsome
    rw [if_neg (by omega), List.length_append]
    exact ⟨List.append_ne_nil_of_right_ne_nil _ hsome, Nat.add_le_add_left hle _⟩

/-- Where the mark does not stand. -/
theorem unmarked {mark : List Char} (h : ∀ rest, text ≠ mark ++ rest) :
    Munches ({mark} * language) text 0 :=
  none fun word behind htext hword => by
    obtain ⟨tail, -, rfl⟩ := mem_marked.mp hword
    exact h (tail ++ behind) (htext.trans (List.append_assoc _ _ _))

section Marks

variable {first second : List Char}

/-- Where the first of two marks stands. -/
theorem firstMark (h : Munches ({first} * language) text count)
    (hsecond : ∀ rest, text ≠ second ++ rest) :
    Munches (({first} + {second}) * language) text count := by
  have hnot : Munches ({second} * language) text 0 := unmarked hsecond
  have hboth := h.or hnot
  rwa [Nat.max_eq_left (Nat.zero_le _), ← add_mul] at hboth

/-- Where the second of two marks stands. -/
theorem secondMark (hfirst : ∀ rest, text ≠ first ++ rest)
    (h : Munches ({second} * language) text count) :
    Munches (({first} + {second}) * language) text count := by
  have hnot : Munches ({first} * language) text 0 := unmarked hfirst
  have hboth := hnot.or h
  rwa [Nat.max_eq_right (Nat.zero_le _), ← add_mul] at hboth

end Marks

/-- One character of a kind. -/
theorem one (accepts : Char → Bool) (text : List Char) :
    Munches (oneOf accepts) text (if text.head?.any accepts then 1 else 0) where
  belongs hpos := by
    split at hpos
    case isTrue hc =>
      obtain ⟨c, hhead, haccepts⟩ := (Option.any_eq_true _ _).mp hc
      obtain ⟨rest, rfl⟩ := List.head?_eq_some_iff.mp hhead
      exact ⟨[c], rest, rfl, (if_pos hc).symm, c, haccepts, rfl⟩
    case isFalse => cases hpos
  longest word rest htext hword := by
    obtain ⟨c, hc, rfl⟩ := hword
    subst htext
    change [c] ≠ [] ∧ 1 ≤ if accepts c = true then 1 else 0
    rw [if_pos hc]
    exact ⟨List.cons_ne_nil _ _, Nat.le_refl 1⟩

/-- A run is as long as it can be. -/
theorem le_runLength {word : List Char} (h : ∀ c ∈ word, accepts c = true) (rest : List Char) :
    word.length ≤ runLength accepts (word ++ rest) := by
  rw [runLength, List.takeWhile_append_of_pos h, List.length_append]
  exact Nat.le_add_right _ _

theorem run (accepts : Char → Bool) (text : List Char) :
    Munches (someOf accepts) text (runLength accepts text) where
  belongs hpos := by
    refine ⟨text.takeWhile accepts, text.dropWhile accepts, List.takeWhile_append_dropWhile.symm,
      rfl, mem_someOf.mpr ⟨List.length_pos_iff.mp hpos, ?_⟩⟩
    exact fun c hc => List.all_eq_true.mp List.all_takeWhile c hc
  longest word rest htext hword := by
    obtain ⟨hsome, hall⟩ := mem_someOf.mp hword
    exact ⟨hsome, htext ▸ le_runLength hall rest⟩

theorem markedRun (mark : List Char) (accepts : Char → Bool) (rest : List Char) :
    Munches ({mark} * someOf accepts) (mark ++ rest) (runAfter mark.length accepts rest) := by
  rw [runAfter_eq]
  exact (run accepts rest).behind mark

/-- What starts with a given word and goes on as a run; the run may be empty. -/
theorem headed {starts : Language Char} {first : List Char} (hfirst : first ≠ [])
    (hstarts : first ∈ starts)
    (honly : ∀ word tail, first ++ rest = word ++ tail → word ∈ starts → word = first)
    (accepts : Char → Bool) :
    Munches (starts * (oneOf accepts)∗) (first ++ rest)
      (first.length + runLength accepts rest) where
  belongs _ := by
    refine ⟨first ++ rest.takeWhile accepts, rest.dropWhile accepts, ?_, List.length_append,
      Language.append_mem_mul hstarts (mem_star_oneOf.mpr fun c hc => ?_)⟩
    · rw [List.append_assoc, List.takeWhile_append_dropWhile]
    · exact List.all_eq_true.mp List.all_takeWhile c hc
  longest word behind htext hword := by
    obtain ⟨found, hfound, tail, htail, rfl⟩ := Language.mem_mul.mp hword
    rw [List.append_assoc] at htext
    obtain rfl := honly found (tail ++ behind) htext hfound
    obtain rfl := List.append_cancel_left htext
    rw [List.length_append]
    exact ⟨List.append_ne_nil_of_left_ne_nil hfirst _,
      Nat.add_le_add_left (le_runLength (mem_star_oneOf.mp htail) behind) _⟩

theorem markedStar (mark : List Char) (hmark : mark ≠ []) (accepts : Char → Bool)
    (rest : List Char) :
    Munches ({mark} * (oneOf accepts)∗) (mark ++ rest) (mark.length + runLength accepts rest) :=
  .headed hmark (mem_exactly.mpr rfl) (fun _ _ _ hword => mem_exactly.mp hword) accepts

end Munches

/-! ## Quoted contents -/

/-- Whether every quote of a content stands behind a backslash, and no character `stops` it; the
content itself may stand behind a backslash. -/
def escapesQuotes (stops : Char → Bool) (afterBackslash : Bool) : List Char → Bool
  | [] => true
  | c :: rest =>
    !stops c && (c != '"' || afterBackslash) && escapesQuotes stops (c == '\\') rest

section Quotes

variable {stops : Char → Bool} {afterBackslash : Bool} {c : Char} {text rest : List Char}

theorem escapesQuotes_cons : escapesQuotes stops afterBackslash (c :: rest) = true ↔
    stops c = false ∧ (c = '"' → afterBackslash = true) ∧
      escapesQuotes stops (c == '\\') rest = true := by
  rw [escapesQuotes, Bool.and_eq_true, Bool.and_eq_true, Bool.not_eq_true', Bool.or_eq_true,
    bne_iff_ne, and_assoc, ne_eq, ← imp_iff_not_or]

/-- A backslash in front does no harm. -/
theorem escapesQuotes_mono (h : escapesQuotes stops false text = true) :
    escapesQuotes stops afterBackslash text = true := by
  cases text with
  | nil => rfl
  | cons c rest =>
    obtain ⟨hstops, hquote, hrest⟩ := escapesQuotes_cons.mp h
    exact escapesQuotes_cons.mpr ⟨hstops, fun hc => absurd (hquote hc) Bool.false_ne_true, hrest⟩

/-- Contents in which every quote stands behind a backslash are made of items; a quote in front of
them goes with the backslash in front of it. -/
theorem mem_items_of_escapesQuotes (h : escapesQuotes endsLine afterBackslash text = true) :
    (if afterBackslash then ['\\'] else []) ++ text ∈ quotedItem∗ := by
  have hplain {c : Char} (hends : endsLine c = false) (hc : c ≠ '"') : [c] ∈ quotedItem :=
    .inr ⟨c, by simp [hends, hc], rfl⟩
  have hbackslash : ['\\'] ∈ quotedItem := hplain rfl (by decide)
  induction text generalizing afterBackslash with
  | nil =>
    cases afterBackslash with
    | false => exact Language.nil_mem_kstar _
    | true => exact append_mem_star hbackslash (Language.nil_mem_kstar _)
  | cons c rest ih =>
    obtain ⟨hends, hquote, hrest⟩ := escapesQuotes_cons.mp h
    have hlater := ih hrest
    by_cases hc : c = '"'
    · obtain rfl := hquote hc
      subst hc
      have hescaped : ['\\', '"'] ++ rest ∈ quotedItem∗ := append_mem_star (.inl rfl) hlater
      exact hescaped
    · have hthis : c :: rest ∈ quotedItem∗ := by
        by_cases hslash : c = '\\'
        · subst hslash
          exact hlater
        · rw [beq_eq_false_iff_ne.mpr hslash] at hlater
          exact append_mem_star (hplain hends hc) hlater
      cases afterBackslash with
      | false => exact hthis
      | true => exact append_mem_star hbackslash hthis

theorem mem_star_quotedItem : text ∈ quotedItem∗ ↔ escapesQuotes endsLine false text = true := by
  constructor
  · intro h
    refine star_induction (motive := fun text => escapesQuotes endsLine false text = true) rfl ?_ h
    rintro _ (rfl | ⟨c, hc, rfl⟩) rest hrest
    · exact hrest
    · obtain ⟨hends, hquote⟩ := Bool.and_eq_true_iff.mp hc
      rw [Bool.not_eq_true'] at hends
      exact escapesQuotes_cons.mpr
        ⟨hends, fun heq => absurd heq (bne_iff_ne.mp hquote), escapesQuotes_mono hrest⟩
  · exact mem_items_of_escapesQuotes

/-- A quoted text ends with the quote that its length counts up to. -/
theorem exists_of_quoteLength? {count : Nat} (h : quoteLength? afterBackslash text = some count) :
    ∃ body rest, text = body ++ '"' :: rest ∧ count = body.length + 1 ∧
      escapesQuotes endsLine afterBackslash body = true := by
  fun_induction quoteLength? afterBackslash text generalizing count with
  | case1 | case2 => cases h
  | case3 rest hends ih =>
    obtain rfl := Option.some.inj h
    cases hmore : quoteLength? false rest with
    | none => exact ⟨[], rest, rfl, rfl, rfl⟩
    | some more =>
      obtain ⟨body, behind, rfl, rfl, hbody⟩ := ih hmore
      exact ⟨'"' :: body, behind, rfl, Nat.add_comm _ _,
        escapesQuotes_cons.mpr ⟨rfl, fun _ => rfl, hbody⟩⟩
  | case4 afterBackslash rest =>
    obtain rfl := Option.some.inj h
    exact ⟨[], rest, rfl, rfl, rfl⟩
  | case5 afterBackslash c rest hends hquote ih =>
    obtain ⟨more, hmore, rfl⟩ := Option.map_eq_some_iff.mp h
    obtain ⟨body, behind, rfl, rfl, hbody⟩ := ih hmore
    refine ⟨c :: body, behind, rfl, Nat.add_comm _ _, escapesQuotes_cons.mpr ⟨?_, ?_, hbody⟩⟩
    · exact Bool.eq_false_iff.mpr hends
    · exact fun hc => absurd hc hquote

/-- No quote that can end a quoted text stands further on. -/
theorem le_quoteLength? {body : List Char}
    (h : escapesQuotes endsLine afterBackslash body = true) (rest : List Char) :
    ∃ count, quoteLength? afterBackslash (body ++ '"' :: rest) = some count ∧
      body.length + 1 ≤ count := by
  induction body generalizing afterBackslash with
  | nil =>
    rw [List.nil_append, quoteLength?, if_neg (by decide), if_pos rfl]
    split
    · exact ⟨_, rfl, Nat.le_add_right _ _⟩
    · exact ⟨1, rfl, Nat.le_refl 1⟩
  | cons c others ih =>
    obtain ⟨hends, hquote, hothers⟩ := escapesQuotes_cons.mp h
    obtain ⟨count, hcount, hle⟩ := ih hothers
    rw [List.cons_append, quoteLength?, if_neg (Bool.eq_false_iff.mp hends), List.length_cons]
    by_cases hc : c = '"'
    · subst hc
      rw [show ('"' == '\\') = false from rfl] at hcount
      rw [if_pos rfl, if_pos (hquote rfl), hcount]
      exact ⟨_, rfl, by rw [Option.getD_some]; omega⟩
    · rw [if_neg hc, hcount]
      exact ⟨1 + count, rfl, by omega⟩

theorem Munches.quoted (text : List Char) :
    Munches (quotedItem∗ * {['"']}) text ((quoteLength? false text).getD 0) where
  belongs hpos := by
    cases hcount : quoteLength? false text with
    | none =>
      rw [hcount] at hpos
      cases hpos
    | some count =>
      obtain ⟨body, rest, rfl, rfl, hbody⟩ := exists_of_quoteLength? hcount
      exact ⟨body ++ ['"'], rest, (List.append_assoc body ['"'] rest).symm, List.length_append,
        Language.append_mem_mul (mem_star_quotedItem.mpr hbody) rfl⟩
  longest word rest htext hword := by
    obtain ⟨body, hbody, _, rfl, rfl⟩ := Language.mem_mul.mp hword
    obtain ⟨count, hcount, hle⟩ := le_quoteLength? (mem_star_quotedItem.mp hbody) rest
    rw [htext, List.append_assoc, List.singleton_append, hcount, List.length_append]
    exact ⟨List.append_ne_nil_of_right_ne_nil _ (List.cons_ne_nil _ _), hle⟩

theorem Munches.markedText (mark text : List Char) :
    Munches ({mark} * (quotedItem∗ * {['"']})) (mark ++ text)
      ((quoteLength? false text).elim 0 (mark.length + ·)) := by
  have h := (quoted text).behind mark
  cases hcount : quoteLength? false text with
  | none => rwa [hcount] at h
  | some count =>
    obtain ⟨body, rest, -, rfl, -⟩ := exists_of_quoteLength? hcount
    rwa [hcount] at h

end Quotes

/-! ## Hexadecimal digits -/

/-- Whether a text has hexadecimal digits, and colons in front of some of them. -/
def hexGrouped : List Char → Bool
  | [] => true
  | c :: rest => (isDigitIn 16 c || (c == ':' && startsHex rest)) && hexGrouped rest

section HexGroups

variable {c : Char} {text rest : List Char}

theorem hexGrouped_cons : hexGrouped (c :: rest) = true ↔
    (isDigitIn 16 c = true ∨ c = ':' ∧ startsHex rest = true) ∧ hexGrouped rest = true := by
  rw [hexGrouped, Bool.and_eq_true, Bool.or_eq_true, Bool.and_eq_true, beq_iff_eq]

theorem hexGrouped_append {digits : List Char} (hdigits : ∀ c ∈ digits, isDigitIn 16 c = true)
    (h : hexGrouped rest = true) : hexGrouped (digits ++ rest) = true := by
  induction digits with
  | nil => exact h
  | cons c others ih =>
    obtain ⟨hc, hothers⟩ := List.forall_mem_cons.mp hdigits
    exact hexGrouped_cons.mpr ⟨.inl hc, ih hothers⟩

/-- Digits and colons are a run of digits, and groups behind it. -/
theorem exists_of_hexGrouped (h : hexGrouped text = true) :
    ∃ digits groups, text = digits ++ groups ∧ (∀ c ∈ digits, isDigitIn 16 c = true) ∧
      groups ∈ ({[':']} * someOf (isDigitIn 16))∗ ∧ (startsHex text = true → digits ≠ []) := by
  induction text with
  | nil => exact ⟨[], [], rfl, nofun, Language.nil_mem_kstar _, nofun⟩
  | cons c rest ih =>
    obtain ⟨hc, hrest⟩ := hexGrouped_cons.mp h
    obtain ⟨digits, groups, rfl, hdigits, hgroups, hsome⟩ := ih hrest
    rcases hc with hdigit | ⟨rfl, hstarts⟩
    · exact ⟨c :: digits, groups, rfl, List.forall_mem_cons.mpr ⟨hdigit, hdigits⟩, hgroups,
        fun _ => List.cons_ne_nil c digits⟩
    · refine ⟨[], ':' :: (digits ++ groups), rfl, nofun, ?_, nofun⟩
      have hgroup : ':' :: digits ∈ {[':']} * someOf (isDigitIn 16) :=
        mem_marked.mpr ⟨digits, mem_someOf.mpr ⟨hsome hstarts, hdigits⟩, rfl⟩
      exact append_mem_star hgroup hgroups

theorem startsHex_append (h : startsHex text = true) : startsHex (text ++ rest) = true := by
  cases text with
  | nil => cases h
  | cons c others => exact h

theorem mem_hexGroups :
    text ∈ hexGroups ↔ startsHex text = true ∧ hexGrouped text = true := by
  constructor
  · intro h
    obtain ⟨digits, hrun, groups, hgroups, rfl⟩ := Language.mem_mul.mp h
    obtain ⟨hsome, hdigits⟩ := mem_someOf.mp hrun
    have hstarts {digits rest : List Char} (hsome : digits ≠ [])
        (hdigits : ∀ c ∈ digits, isDigitIn 16 c = true) : startsHex (digits ++ rest) = true := by
      obtain ⟨c, others, rfl⟩ := List.exists_cons_of_ne_nil hsome
      exact hdigits c List.mem_cons_self
    refine ⟨hstarts hsome hdigits, hexGrouped_append hdigits ?_⟩
    refine star_induction (motive := fun text => hexGrouped text = true) rfl ?_ hgroups
    intro group hgroup rest hrest
    obtain ⟨digits, hrun, rfl⟩ := mem_marked.mp hgroup
    obtain ⟨hsome, hdigits⟩ := mem_someOf.mp hrun
    exact hexGrouped_cons.mpr ⟨.inr ⟨rfl, hstarts hsome hdigits⟩, hexGrouped_append hdigits hrest⟩
  · rintro ⟨hstarts, hgrouped⟩
    obtain ⟨digits, groups, rfl, hdigits, hgroups, hsome⟩ := exists_of_hexGrouped hgrouped
    exact Language.append_mem_mul (mem_someOf.mpr ⟨hsome hstarts, hdigits⟩) hgroups

/-- The digits and colons that are counted. -/
theorem exists_of_hexGroupsLength (text : List Char) :
    ∃ word rest, text = word ++ rest ∧ word.length = hexGroupsLength text ∧
      hexGrouped word = true ∧ (startsHex text = true → startsHex word = true) := by
  induction text with
  | nil => exact ⟨[], [], rfl, rfl, rfl, id⟩
  | cons c rest ih =>
    obtain ⟨word, behind, rfl, hlength, hgrouped, hstarts⟩ := ih
    unfold hexGroupsLength
    split
    case isTrue hdigit =>
      exact ⟨c :: word, behind, rfl, by rw [List.length_cons, hlength, Nat.add_comm],
        hexGrouped_cons.mpr ⟨.inl hdigit, hgrouped⟩, fun _ => hdigit⟩
    case isFalse hdigit =>
      split
      case isTrue hcolon =>
        obtain ⟨rfl, hnext⟩ := hcolon
        exact ⟨':' :: word, behind, rfl, by rw [List.length_cons, hlength, Nat.add_comm],
          hexGrouped_cons.mpr ⟨.inr ⟨rfl, hstarts hnext⟩, hgrouped⟩, id⟩
      case isFalse =>
        exact ⟨[], c :: (word ++ behind), rfl, rfl, rfl, fun hc => absurd hc hdigit⟩

theorem le_hexGroupsLength (h : hexGrouped text = true) (rest : List Char) :
    text.length ≤ hexGroupsLength (text ++ rest) := by
  induction text with
  | nil => exact Nat.zero_le _
  | cons c others ih =>
    obtain ⟨hc, hothers⟩ := hexGrouped_cons.mp h
    have hle := ih hothers
    rw [List.cons_append, hexGroupsLength, List.length_cons]
    rcases hc with hdigit | ⟨rfl, hnext⟩
    · rw [if_pos hdigit]
      omega
    · rw [if_neg (by decide), if_pos ⟨rfl, startsHex_append hnext⟩]
      omega

theorem Munches.hexGroups (text : List Char) :
    Munches hexGroups text (if startsHex text then hexGroupsLength text else 0) where
  belongs hpos := by
    split at hpos
    case isTrue hstarts =>
      obtain ⟨word, rest, htext, hlength, hgrouped, hword⟩ := exists_of_hexGroupsLength text
      rw [if_pos hstarts]
      exact ⟨word, rest, htext, hlength, mem_hexGroups.mpr ⟨hword hstarts, hgrouped⟩⟩
    case isFalse => cases hpos
  longest word rest htext hword := by
    obtain ⟨hstarts, hgrouped⟩ := mem_hexGroups.mp hword
    have hsome : word ≠ [] := by
      rintro rfl
      cases hstarts
    subst htext
    rw [if_pos (startsHex_append hstarts)]
    exact ⟨hsome, le_hexGroupsLength hgrouped rest⟩

/-- Behind a mark, digits count from the first one on. -/
theorem Munches.markedHexGroups (mark text : List Char) :
    Munches ({mark} * Asm65816.hexGroups) (mark ++ text)
      (if startsHex text then mark.length + hexGroupsLength text else 0) := by
  have h := (hexGroups text).behind mark
  split
  case isTrue hstarts =>
    have hsome : hexGroupsLength text ≠ 0 := by
      obtain ⟨word, rest, rfl, hlength, -, hword⟩ := exists_of_hexGroupsLength text
      rintro hzero
      obtain rfl := List.length_eq_zero_iff.mp (hlength.trans hzero)
      cases hword hstarts
    rwa [if_pos hstarts, if_neg hsome] at h
  case isFalse hstarts => rwa [if_neg hstarts, if_pos rfl] at h

end HexGroups

/-! ## Every class -/

namespace TokenClass

/-- A sign is the longest spelling that a text starts with. -/
theorem munches_punct (text : List Char) : Munches punct.pattern text (punct.reach text) where
  belongs hpos := by
    cases hlongest : longestPunct? text with
    | none =>
      rw [reach, hlongest] at hpos
      cases hpos
    | some found =>
      rw [longestPunct?_eq_longest?] at hlongest
      obtain ⟨hmem, hprefix, -⟩ := longest?_mem hlongest
      obtain ⟨rest, hrest⟩ := List.isPrefixOf_iff_prefix.mp hprefix
      refine ⟨found.1, rest, hrest.symm, ?_, found.2, hmem⟩
      rw [reach, longestPunct?_eq_longest?, hlongest]
      rfl
  longest word rest htext hword := by
    obtain ⟨sign, hsign⟩ := hword
    have hprefix : word.isPrefixOf text = true :=
      List.isPrefixOf_iff_prefix.mpr ⟨rest, htext.symm⟩
    have hsome : ∀ spelling ∈ Punct.spellings, spelling.1 ≠ [] := by decide
    exact ⟨hsome _ hsign, length_le_longestPunct? hsign hprefix⟩

/-- A local name is a run of characters, and a direction behind it. -/
theorem munches_localName (rest : List Char) :
    Munches localName.pattern ('@' :: rest) (localName.reach ('@' :: rest)) where
  belongs hpos := by
    cases hrun : runLength isNameChar rest with
    | zero =>
      rw [reach, hrun] at hpos
      cases hpos
    | succ count =>
      obtain ⟨word, behind, rfl, hlength, hword⟩ :=
        (Munches.run isNameChar rest).belongs (hrun ▸ Nat.succ_pos count)
      rw [hrun] at hlength
      rcases localName_reach hrun with ⟨direction, tail, hdrop, hdirection, hreach⟩ | ⟨-, hreach⟩
      · rw [List.drop_left' hlength] at hdrop
        refine ⟨'@' :: (word ++ [direction]), tail, ?_, ?_, mem_marked.mpr ⟨_,
          Language.append_mem_mul hword (.inr ?_), rfl⟩⟩
        · rw [hdrop, List.cons_append, List.append_assoc]
          rfl
        · rw [hreach, List.length_cons, List.length_append, hlength]
          rfl
        · exact hdirection.imp (congrArg (fun c => [c])) (congrArg (fun c => [c]))
      · exact ⟨'@' :: word, behind, rfl, by rw [hreach, List.length_cons, hlength],
          mem_marked.mpr ⟨word, Language.mem_mul.mpr ⟨word, hword, [], .inl rfl,
            List.append_nil word⟩, rfl⟩⟩
  longest found behind htext hfound := by
    obtain ⟨tail, htail, rfl⟩ := mem_marked.mp hfound
    obtain ⟨word, hword, direction, hdirection, rfl⟩ := Language.mem_mul.mp htail
    obtain ⟨-, hplain⟩ := mem_someOf.mp hword
    obtain ⟨-, rfl⟩ := List.cons.inj htext
    have hle := Munches.le_runLength hplain (direction ++ behind)
    have hpos := ((Munches.run isNameChar _).longest word (direction ++ behind) rfl hword).1
    rw [← List.length_pos_iff] at hpos
    rw [← List.append_assoc] at hle
    refine ⟨List.cons_ne_nil _ _, ?_⟩
    rw [List.length_append, List.length_append, List.length_singleton]
    change 1 + (word.length + direction.length) ≤
      localName.reach ('@' :: (word ++ direction ++ behind))
    have hdirected : direction = [] ∨ ∃ c, direction = [c] ∧ (c = '+' ∨ c = '-') := by
      rcases hdirection with rfl | rfl | rfl
      · exact .inl rfl
      · exact .inr ⟨'+', rfl, .inl rfl⟩
      · exact .inr ⟨'-', rfl, .inr rfl⟩
    cases hrun : runLength isNameChar (word ++ direction ++ behind) with
    | zero => omega
    | succ count =>
      rcases localName_reach hrun with ⟨_, _, -, -, hreach⟩ | ⟨hnone, hreach⟩
      · rw [hreach]
        rcases hdirected with rfl | ⟨c, rfl, -⟩
        all_goals
          simp only [List.length_nil, List.length_singleton]
          omega
      · rw [hreach]
        rcases hdirected with rfl | ⟨c, rfl, hc⟩
        · rw [List.length_nil]
          omega
        · -- A direction right behind the run would belong to the name.
          have hshort : word.length ≠ count + 1 := by
            intro hlength
            rw [List.append_assoc, List.drop_left' hlength] at hnone
            obtain ⟨hplus, hminus⟩ := hnone c rfl
            exact hc.elim hplus hminus
          rw [List.length_singleton]
          omega

theorem munches_name (c : Char) (rest : List Char) :
    Munches name.pattern (c :: rest)
      (if startsName c then 1 + runLength isNameChar rest else 0) := by
  split
  case isTrue hc =>
    have hstarts : [c] ∈ oneOf startsName := ⟨c, hc, rfl⟩
    refine .headed (List.cons_ne_nil c []) hstarts ?_ isNameChar
    rintro _ tail htext ⟨d, -, rfl⟩
    rw [(List.cons.inj htext).1]
  case isFalse hc =>
    refine .none fun word behind htext hword => ?_
    obtain ⟨d, tail, hd, -, rfl⟩ := mem_oneOf_mul.mp hword
    exact hc ((List.cons.inj htext).1 ▸ hd)

/-- An argument is one letter, or the digits of a number. -/
theorem munches_argument (rest : List Char) :
    Munches argument.pattern ('\\' :: rest)
      (if rest.head?.any isArgumentLetter then 2 else runAfter 1 (isDigitIn 10) rest) := by
  have h := ((Munches.run (isDigitIn 10) rest).or (.one isArgumentLetter rest)).behind ['\\']
  split
  case isTrue hletter =>
    obtain ⟨c, hhead, hc⟩ := (Option.any_eq_true _ _).mp hletter
    obtain ⟨others, rfl⟩ := List.head?_eq_some_iff.mp hhead
    have hdigit : isDigitIn 10 c = false := by
      have hdigits : decimalDigits.all (fun d => !isArgumentLetter d) = true := by decide
      refine Bool.eq_false_iff.mpr fun hd => ?_
      have hnone := List.all_eq_true.mp hdigits c (mem_decimalDigits (Nat.le_refl 10) hd)
      rw [hc] at hnone
      cases hnone
    rw [runLength_eq_zero others hdigit, if_pos hletter] at h
    exact h
  case isFalse hletter =>
    rwa [if_neg hletter, Nat.max_eq_left (Nat.zero_le _), ← runAfter_eq] at h

theorem munches (kind : TokenClass) (text : List Char) :
    Munches kind.pattern text (kind.reach text) := by
  unfold reach
  split
  case h_1 => exact .run isSpacing _
  case h_2 rest => exact .firstMark (.markedStar [';'] (List.cons_ne_nil _ _) _ rest) nofun
  case h_3 rest => exact .secondMark nofun (.markedStar ['/', '/'] (List.cons_ne_nil _ _) _ rest)
  case h_4 => exact munches_punct _
  case h_5 rest => exact .markedText ['"'] rest
  case h_6 rest => exact .markedText ['p', '"'] rest
  case h_7 rest => exact .firstMark (.markedHexGroups ['$'] rest) nofun
  case h_8 rest => exact .secondMark nofun (.markedHexGroups ['0', 'x'] rest)
  case h_9 rest => exact .firstMark (.markedRun ['&'] _ rest) nofun
  case h_10 rest => exact .secondMark nofun (.markedRun ['0', 'o'] _ rest)
  case h_11 rest => exact .firstMark (.markedRun ['%'] _ rest) nofun
  case h_12 rest => exact .secondMark nofun (.markedRun ['0', 'b'] _ rest)
  case h_13 => exact .run _ _
  case h_14 c rest => exact munches_name c rest
  case h_15 rest => exact munches_localName rest
  case h_16 rest =>
    have h := munches_argument rest
    split
    case h_1 | h_2 | h_3 => exact h
    case h_4 hL hi hv =>
      have hletter : ¬rest.head?.any isArgumentLetter = true := by
        intro hany
        obtain ⟨c, hhead, hc⟩ := (Option.any_eq_true _ _).mp hany
        obtain ⟨others, rfl⟩ := List.head?_eq_some_iff.mp hhead
        simp only [isArgumentLetter, Bool.or_eq_true, beq_iff_eq] at hc
        rcases hc with (rfl | rfl) | rfl
        · exact hL others rfl
        · exact hi others rfl
        · exact hv others rfl
      rwa [if_neg hletter] at h
  case h_17 hblank hpunct hdecimal hsemicolon hslashes hquote hpetscii hdollar hhex hampersand
      hoctal hpercent hbinary hname hat hbackslash =>
    cases kind with
    | blank => exact absurd rfl hblank
    | punct => exact absurd rfl hpunct
    | decimal => exact absurd rfl hdecimal
    | comment => exact .firstMark (.unmarked (hsemicolon · rfl)) (hslashes · rfl)
    | text => exact .unmarked (hquote · rfl)
    | petsciiText => exact .unmarked (hpetscii · rfl)
    | hexadecimal => exact .firstMark (.unmarked (hdollar · rfl)) (hhex · rfl)
    | octal => exact .firstMark (.unmarked (hampersand · rfl)) (hoctal · rfl)
    | binary => exact .firstMark (.unmarked (hpercent · rfl)) (hbinary · rfl)
    | localName => exact .unmarked (hat · rfl)
    | argument => exact .unmarked (hbackslash · rfl)
    | name =>
      refine .none fun word rest htext hword => ?_
      obtain ⟨c, tail, -, -, rfl⟩ := mem_oneOf_mul.mp hword
      exact hname c (tail ++ rest) rfl htext

end TokenClass

end Asm65816
