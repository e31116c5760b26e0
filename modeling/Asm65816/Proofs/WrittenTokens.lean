import Asm65816.Proofs.ClosedPieces

/-!
# Written tokens

A token that was read can be written again: the text of a sign is its spelling, that of a name is
the name, that of a number states its value in its radix and width, and a quoted text is put in
quotes. Where it is closed, this text is one piece, and is read as the token.
-/

namespace Asm65816

/-! ## Names -/

/-- The texts of names. -/
inductive NameText : List Char → Prop where
  | word {c : Char} {chars : List Char} (starts : startsName c = true)
      (plain : ∀ c ∈ chars, isNameChar c = true) : NameText (c :: chars)
  | localName {chars direction : List Char} (some : chars ≠ [])
      (plain : ∀ c ∈ chars, isNameChar c = true)
      (directs : direction = [] ∨ direction = ['+'] ∨ direction = ['-']) :
      NameText ('@' :: (chars ++ direction))
  | letter {c : Char} (known : c = 'L' ∨ c = 'i' ∨ c = 'v') : NameText ['\\', c]
  | count {digits : List Char} (some : digits ≠ [])
      (plain : ∀ c ∈ digits, isDigitIn 10 c = true) : NameText ('\\' :: digits)

namespace TokenClass

/-- What the class of names reaches is a name. -/
theorem nameText_of_name {text : List Char} (h : 0 < name.reach text) :
    NameText (text.take (name.reach text)) := by
  unfold reach at h ⊢
  split at h
  case h_14 c rest _ =>
    split at h
    case isTrue hstarts =>
      rw [if_pos hstarts, Nat.add_comm, List.take_succ_cons]
      exact .word hstarts fun c hc => accepts_of_mem_run hc
    case isFalse => cases h
  case h_17 => cases h
  all_goals contradiction

/-- A local name reaches over its characters, and over a direction behind them. -/
theorem localName_reach {rest : List Char} {count : Nat}
    (hrun : runLength isNameChar rest = count + 1) :
    (∃ direction tail, rest.drop (count + 1) = direction :: tail ∧
      (direction = '+' ∨ direction = '-') ∧ localName.reach ('@' :: rest) = count + 3) ∨
    (∀ c ∈ (rest.drop (count + 1)).head?, c ≠ '+' ∧ c ≠ '-') ∧
      localName.reach ('@' :: rest) = count + 2 := by
  rw [reach, hrun]
  split
  case h_1 h => cases h
  case h_2 found _ =>
    split
    case h_1 tail hdrop => exact .inl ⟨'+', tail, hdrop, .inl rfl, by omega⟩
    case h_2 tail hdrop => exact .inl ⟨'-', tail, hdrop, .inr rfl, by omega⟩
    case h_3 hplus hminus =>
      refine .inr ⟨fun c hc => ?_, by omega⟩
      obtain ⟨tail, hdrop⟩ := List.head?_eq_some_iff.mp hc
      constructor
      · rintro rfl
        exact hplus tail hdrop
      · rintro rfl
        exact hminus tail hdrop

/-- What the class of local names reaches is a name. -/
theorem nameText_of_localName {text : List Char} (h : 0 < localName.reach text) :
    NameText (text.take (localName.reach text)) := by
  obtain ⟨rest, rfl⟩ : ∃ rest, text = '@' :: rest := by
    unfold reach at h
    split at h
    case h_15 rest _ => exact ⟨rest, rfl⟩
    case h_17 => cases h
    all_goals contradiction
  have hplain : ∀ c ∈ rest.take (runLength isNameChar rest), isNameChar c = true :=
    fun c hc => accepts_of_mem_run hc
  have hlength : (rest.take (runLength isNameChar rest)).length = runLength isNameChar rest :=
    length_take_runLength rest
  cases hrun : runLength isNameChar rest with
  | zero =>
    rw [reach, hrun] at h
    cases h
  | succ count =>
    rw [hrun] at hplain hlength
    have hsome : rest.take (count + 1) ≠ [] := by
      intro hnil
      rw [hnil] at hlength
      cases hlength
    rcases localName_reach hrun with ⟨direction, tail, hdrop, hdirection, hreach⟩ | ⟨-, hreach⟩
    · have htake : rest.take (count + 1 + 1) = rest.take (count + 1) ++ [direction] := by
        rw [List.take_add (i := count + 1), hdrop]
        rfl
      rw [hreach, List.take_succ_cons, htake]
      refine .localName hsome hplain (.inr ?_)
      exact hdirection.imp (congrArg (fun c => [c])) (congrArg (fun c => [c]))
    · rw [hreach, List.take_succ_cons, ← List.append_nil (rest.take _)]
      exact .localName hsome hplain (.inl rfl)

/-- What the class of macro arguments reaches is a name. -/
theorem nameText_of_argument {text : List Char} (h : 0 < argument.reach text) :
    NameText (text.take (argument.reach text)) := by
  unfold reach at h ⊢
  split at h
  case h_16 rest _ =>
    split
    case h_1 => exact .letter (.inl rfl)
    case h_2 => exact .letter (.inr (.inl rfl))
    case h_3 => exact .letter (.inr (.inr rfl))
    case h_4 hL hi hv =>
      have hplain : ∀ c ∈ rest.take (runLength (isDigitIn 10) rest), isDigitIn 10 c = true :=
        fun c hc => accepts_of_mem_run hc
      have hlength : (rest.take (runLength (isDigitIn 10) rest)).length =
          runLength (isDigitIn 10) rest :=
        length_take_runLength rest
      rw [runAfter] at h ⊢
      generalize runLength (isDigitIn 10) rest = count at h hplain hlength ⊢
      cases count with
      | zero =>
        split at h
        case h_1 => exact absurd rfl (hL _)
        case h_2 => exact absurd rfl (hi _)
        case h_3 => exact absurd rfl (hv _)
        case h_4 => cases h
      | succ count =>
        change NameText (('\\' :: rest).take (1 + (count + 1)))
        rw [Nat.add_comm 1, List.take_succ_cons]
        refine .count (fun hnil => ?_) hplain
        rw [hnil] at hlength
        cases hlength
  case h_17 => cases h
  all_goals contradiction

end TokenClass

/-- The characters that the classes other than that of names can start with. -/
def starters : List Char :=
  [' ', '\t', '\r', '\x0c', ';', '/', '"', 'p', '$', '0', '&', '%', '@', '\\'] ++ decimalDigits ++
    Punct.firsts

theorem mem_starters {c : Char} {kind : TokenClass} (hkind : kind ≠ .name)
    (h : kind.startsWith c = true) : c ∈ starters := by
  rw [starters, List.mem_append, List.mem_append]
  cases kind with
  | name => exact absurd rfl hkind
  | decimal => exact .inl (.inr (mem_decimalDigits (Nat.le_refl 10) h))
  | punct => exact .inr (List.contains_iff_mem.mp h)
  | _ =>
    left
    left
    simp only [TokenClass.startsWith, isSpacing, Bool.or_eq_true, beq_iff_eq] at h
    simp only [List.mem_cons, List.not_mem_nil, or_false]
    grind

/-- The other classes that can start with the first character of a name: a quoted text behind a
`p`, and the ellipsis. -/
theorem startsWith_of_name {c : Char} (hc : startsName c = true) {other : TokenClass}
    (hother : other ≠ .name) (h : other.startsWith c = true) :
    (other = .petsciiText ∧ c = 'p') ∨ (other = .punct ∧ c = '.') := by
  have hstarters : ∀ d ∈ starters, startsName d = true →
      ∀ other ∈ TokenClass.all, other ≠ .name → other.startsWith d = true →
        (other = .petsciiText ∧ d = 'p') ∨ (other = .punct ∧ d = '.') :=
    List.all_iff_forall_prop.mp (by decide)
  exact hstarters c (mem_starters hother h) hc other other.mem_all hother h

theorem petsciiText_reach_eq_zero {rest : List Char} (h : ∀ c ∈ rest.head?, c ≠ '"') :
    TokenClass.petsciiText.reach ('p' :: rest) = 0 := by
  generalize htext : 'p' :: rest = text
  unfold TokenClass.reach
  split
  case h_6 =>
    cases htext
    exact absurd rfl (h _ rfl)
  case h_17 => rfl
  all_goals contradiction

/-- A single point is no sign. -/
theorem punct_reach_eq_zero_of_point {rest : List Char} (h : ∀ c ∈ rest.head?, c ≠ '.') :
    TokenClass.punct.reach ('.' :: rest) = 0 := by
  have hnone : longestPunct? ('.' :: rest) = none := by
    rw [longestPunct?_eq_longest?, Option.eq_none_iff_forall_ne_some]
    intro spelling hfound
    obtain ⟨hmem, hprefix, hpos⟩ := longest?_mem hfound
    rw [List.isPrefixOf_iff_prefix] at hprefix
    have hspellings : ∀ spelling ∈ Punct.spellings, spelling.1.head? = some '.' →
        spelling.1 = ['.', '.', '.'] := by
      decide
    obtain ⟨first, others, hcons⟩ := List.exists_cons_of_length_pos hpos
    obtain ⟨rfl, -⟩ := List.cons_prefix_cons.mp (hcons ▸ hprefix)
    rw [hspellings spelling hmem (hcons ▸ rfl)] at hprefix
    obtain ⟨behind, hbehind⟩ := hprefix
    cases hbehind
    exact absurd rfl (h _ rfl)
  rw [TokenClass.reach, hnone]
  rfl

/-- A plain name is one piece where it is closed. -/
theorem nextPiece_word {c : Char} {chars rest : List Char} (starts : startsName c = true)
    (plain : ∀ d ∈ chars, isNameChar d = true) (hrest : Closes rest) :
    nextPiece ((c :: chars) ++ rest) =
      ((c :: chars).length, .token (.name (String.ofList (c :: chars)))) := by
  have hrun := runLength_append plain (hrest.stops (by decide))
  -- Behind the first character stands one that is neither a quote nor a point.
  have hsecond : ∀ d ∈ (chars ++ rest).head?, d ≠ '"' ∧ d ≠ '.' := by
    intro d hd
    have hkind : isNameChar d = true ∨ d ∈ closers := by
      cases chars with
      | nil => exact .inr (hrest d hd)
      | cons second others =>
        cases hd
        exact .inl (plain d List.mem_cons_self)
    constructor
    · rintro rfl
      exact absurd hkind (by decide)
    · rintro rfl
      exact absurd hkind (by decide)
  have hreach : TokenClass.name.reach ((c :: chars) ++ rest) = (c :: chars).length := by
    change (if startsName c then 1 + runLength isNameChar (chars ++ rest) else 0) = _
    rw [if_pos starts, hrun, List.length_cons, Nat.add_comm]
  refine nextPiece_eq (List.cons_ne_nil _ _) hreach fun other hother => ?_
  have hzero : other.reach (c :: (chars ++ rest)) = 0 := by
    cases hstarts : other.startsWith c with
    | false => exact TokenClass.reach_eq_zero _ hstarts
    | true =>
      rcases startsWith_of_name starts hother hstarts with ⟨rfl, rfl⟩ | ⟨rfl, rfl⟩
      · exact petsciiText_reach_eq_zero fun d hd => (hsecond d hd).1
      · exact punct_reach_eq_zero_of_point fun d hd => (hsecond d hd).2
  exact hzero ▸ Nat.succ_pos _

/-- A local name is one piece where it is closed. -/
theorem nextPiece_localName {chars direction rest : List Char} (some : chars ≠ [])
    (plain : ∀ c ∈ chars, isNameChar c = true)
    (directs : direction = [] ∨ direction = ['+'] ∨ direction = ['-']) (hrest : Closes rest) :
    nextPiece ('@' :: (chars ++ direction) ++ rest) =
      (('@' :: (chars ++ direction)).length,
        .token (.name (String.ofList ('@' :: (chars ++ direction))))) := by
  have hstops : ∀ c ∈ (direction ++ rest).head?, isNameChar c = false := by
    rcases directs with rfl | rfl | rfl
    · exact hrest.stops (by decide)
    · rintro c ⟨⟩
      rfl
    · rintro c ⟨⟩
      rfl
  obtain ⟨c, others, rfl⟩ := List.exists_cons_of_ne_nil some
  have hdrop : ((c :: others) ++ (direction ++ rest)).drop (others.length + 1) =
      direction ++ rest :=
    List.drop_left
  have hreach : TokenClass.localName.reach ('@' :: ((c :: others) ++ direction) ++ rest) =
      ('@' :: ((c :: others) ++ direction)).length := by
    rw [List.cons_append, List.append_assoc, List.length_cons, List.length_append, List.length_cons]
    rcases TokenClass.localName_reach (runLength_append plain hstops) with
      ⟨found, tail, hfound, hdirection, hreach⟩ | ⟨hnone, hreach⟩
    · rw [hreach]
      rw [hdrop] at hfound
      rcases directs with rfl | rfl | rfl
      · -- What closes the name is no direction.
        have hcloser := hrest found (congrArg List.head? hfound)
        rcases hdirection with rfl | rfl
        · exact absurd hcloser (by decide)
        · exact absurd hcloser (by decide)
      · rfl
      · rfl
    · rw [hreach]
      rw [hdrop] at hnone
      rcases directs with rfl | rfl | rfl
      · rfl
      · exact absurd rfl (hnone '+' rfl).1
      · exact absurd rfl (hnone '-' rfl).2
  refine nextPiece_eq (List.cons_ne_nil _ _) hreach fun other hother => ?_
  rw [List.cons_append, TokenClass.reach_eq_zero_of_marked (by decide) hother]
  exact Nat.succ_pos _

/-- A macro argument is one piece where it is closed. -/
theorem nextPiece_argument {mark rest : List Char}
    (known : (∃ c, mark = [c] ∧ (c = 'L' ∨ c = 'i' ∨ c = 'v')) ∨
      mark ≠ [] ∧ ∀ c ∈ mark, isDigitIn 10 c = true) (hrest : Closes rest) :
    nextPiece (('\\' :: mark) ++ rest) =
      (('\\' :: mark).length, .token (.name (String.ofList ('\\' :: mark)))) := by
  have hreach : TokenClass.argument.reach (('\\' :: mark) ++ rest) = ('\\' :: mark).length := by
    rcases known with ⟨c, rfl, rfl | rfl | rfl⟩ | ⟨hsome, hdigits⟩
    · rfl
    · rfl
    · rfl
    · have hreach := runAfter_append 1 hsome hdigits (hrest.stops (by decide))
      obtain ⟨c, others, rfl⟩ := List.exists_cons_of_ne_nil hsome
      have hdigit := mem_decimalDigits (Nat.le_refl 10) (hdigits c List.mem_cons_self)
      rw [List.length_cons, Nat.add_comm, ← hreach]
      simp only [decimalDigits, List.mem_cons, List.not_mem_nil, or_false] at hdigit
      rcases hdigit with rfl | rfl | rfl | rfl | rfl | rfl | rfl | rfl | rfl | rfl
      all_goals rfl
  refine nextPiece_eq (List.cons_ne_nil _ _) hreach fun other hother => ?_
  rw [List.cons_append, TokenClass.reach_eq_zero_of_marked (by decide) hother]
  exact Nat.succ_pos _

/-- A name is one piece where it is closed. -/
theorem nextPiece_name {text rest : List Char} (h : NameText text) (hrest : Closes rest) :
    nextPiece (text ++ rest) = (text.length, .token (.name (String.ofList text))) := by
  cases h with
  | word starts plain => exact nextPiece_word starts plain hrest
  | localName some plain directs => exact nextPiece_localName some plain directs hrest
  | letter known => exact nextPiece_argument (.inl ⟨_, rfl, known⟩) hrest
  | count some plain => exact nextPiece_argument (.inr ⟨some, plain⟩) hrest

/-! ## The contents of quoted texts -/

/-- A quoted text does not go on behind the end of a line. -/
theorem endsLine_of_mem_quote {afterBackslash : Bool} {text : List Char} {count : Nat}
    (h : quoteLength? afterBackslash text = some count) :
    ∀ c ∈ text.take count, endsLine c = false := by
  fun_induction quoteLength? afterBackslash text generalizing count with
  | case1 | case2 => cases h
  | case3 rest hquote ih =>
    obtain rfl := Option.some.inj h
    rw [Nat.add_comm, List.take_succ_cons, List.forall_mem_cons]
    refine ⟨rfl, ?_⟩
    cases hmore : quoteLength? false rest with
    | none => exact fun c hc => absurd hc (by simp)
    | some more => exact ih hmore
  | case4 =>
    obtain rfl := Option.some.inj h
    exact List.forall_mem_singleton.mpr rfl
  | case5 afterBackslash c rest hends hquote ih =>
    obtain ⟨more, hmore, rfl⟩ := Option.map_eq_some_iff.mp h
    rw [Nat.add_comm, List.take_succ_cons, List.forall_mem_cons]
    exact ⟨Bool.eq_false_iff.mpr hends, ih hmore⟩

/-- Resolving escapes adds no characters. -/
theorem mem_of_mem_unescapeQuotes {c : Char} {text : List Char} (h : c ∈ unescapeQuotes text) :
    c ∈ text := by
  fun_induction unescapeQuotes text with
  | case1 rest ih =>
    refine List.mem_cons_of_mem _ ?_
    exact (List.mem_cons.mp h).elim (· ▸ List.mem_cons_self) fun hrest =>
      List.mem_cons_of_mem _ (ih hrest)
  | case2 first rest hescape ih =>
    exact (List.mem_cons.mp h).elim (· ▸ List.mem_cons_self) fun hrest =>
      List.mem_cons_of_mem _ (ih hrest)
  | case3 => cases h

/-- The content of a quoted text has no other characters than what stands between its quotes. -/
theorem mem_of_mem_quotedContent {opening : Nat} {text : List Char} {c : Char}
    (h : c ∈ (quotedContent opening text).toList) : c ∈ text.drop opening := by
  rw [quotedContent, String.toList_ofList] at h
  exact List.dropLast_subset _ (mem_of_mem_unescapeQuotes h)

namespace TokenClass

/-- The class of quoted texts reaches to a quote that closes the text. -/
theorem text_reach {input : List Char} (h : 0 < text.reach input) :
    ∃ rest count, quoteLength? false rest = some count ∧
      (input.take (text.reach input)).drop 1 = rest.take count := by
  unfold reach at h ⊢
  split at h
  case h_5 rest _ =>
    cases hquote : quoteLength? false rest with
    | none =>
      rw [hquote] at h
      exact absurd h (Nat.lt_irrefl 0)
    | some count =>
      refine ⟨rest, count, hquote, ?_⟩
      rw [Option.elim_some, Nat.add_comm, List.take_succ_cons]
      rfl
  case h_17 => cases h
  all_goals contradiction

theorem petsciiText_reach {input : List Char} (h : 0 < petsciiText.reach input) :
    ∃ rest count, quoteLength? false rest = some count ∧
      (input.take (petsciiText.reach input)).drop 2 = rest.take count := by
  unfold reach at h ⊢
  split at h
  case h_6 rest _ =>
    cases hquote : quoteLength? false rest with
    | none =>
      rw [hquote] at h
      exact absurd h (Nat.lt_irrefl 0)
    | some count =>
      refine ⟨rest, count, hquote, ?_⟩
      rw [Option.elim_some, Nat.add_comm, List.take_succ_cons, List.take_succ_cons]
      rfl
  case h_17 => cases h
  all_goals contradiction

end TokenClass

/-- A number is read as a number. -/
theorem readNumber_token {value width : Nat} {radix : Radix} {token : TokenKind}
    (h : readNumber value radix width = .token token) : ∃ n, token = .number n := by
  unfold readNumber at h
  split at h
  case isTrue =>
    cases h
    exact ⟨_, rfl⟩
  case isFalse => cases h

/-- Quoted texts and names are read by their own classes. -/
theorem TokenClass.read_cases {kind : TokenClass} {text : List Char} {token : TokenKind}
    (h : kind.read text = .token token) :
    (∃ sign, token = .punct sign) ∨ (∃ n, token = .number n) ∨
      (kind = .text ∧ token = .text (quotedContent 1 text) false) ∨
      (kind = .petsciiText ∧ token = .text (quotedContent 2 text) true) ∨
      (kind = .name ∨ kind = .localName ∨ kind = .argument) ∧
        token = .name (String.ofList text) := by
  cases kind with
  | blank | comment => cases h
  | punct =>
    unfold read at h
    dsimp only at h
    split at h
    case h_1 sign _ =>
      cases h
      exact .inl ⟨sign, rfl⟩
    case h_2 => cases h
  | hexadecimal | octal | decimal => exact .inr (.inl (readNumber_token h))
  | binary =>
    unfold read at h
    dsimp only at h
    split at h
    case isTrue => cases h
    case isFalse => exact .inr (.inl (readNumber_token h))
  | text => exact .inr (.inr (.inl ⟨rfl, (Reading.token.inj h).symm⟩))
  | petsciiText => exact .inr (.inr (.inr (.inl ⟨rfl, (Reading.token.inj h).symm⟩)))
  | name | localName | argument =>
    refine .inr (.inr (.inr (.inr ⟨?_, (Reading.token.inj h).symm⟩)))
    decide

/-! ## Tokens -/

namespace TokenKind

/-- Tokens that their text is read as again. A quoted text is written as it is, so that its content
must not need an escape. -/
def Written : TokenKind → Prop
  | punct _ => True
  | text content _ => PlainContent content.toList
  | number n => n.Literal
  | name ident => NameText ident.toList

/-- The text of a token. -/
def render : TokenKind → String
  | punct sign => sign.spelling
  | text content petscii => if petscii then "p\"" ++ content ++ "\"" else "\"" ++ content ++ "\""
  | number n => n.render
  | name ident => ident

/-- The characters of a token. -/
def chars (token : TokenKind) : List Char := token.render.toList

theorem chars_text (content : String) (petscii : Bool) :
    (text content petscii).chars =
      if petscii then 'p' :: '"' :: (content.toList ++ ['"'])
      else '"' :: (content.toList ++ ['"']) := by
  cases petscii with
  | false =>
    change ("\"" ++ content ++ "\"").toList = '"' :: (content.toList ++ ['"'])
    rw [String.toList_append, String.toList_append]
    rfl
  | true =>
    change ("p\"" ++ content ++ "\"").toList = 'p' :: '"' :: (content.toList ++ ['"'])
    rw [String.toList_append, String.toList_append]
    rfl

end TokenKind

/-- What a line is made of can be written again, but for texts with quotes and backslashes. -/
theorem written_of_nextPiece {text : List Char} {token : TokenKind}
    (h : (nextPiece text).2 = .token token)
    (hplain : ∀ content petscii, token = .text content petscii →
      ∀ c ∈ content.toList, c ≠ '"' ∧ c ≠ '\\') : token.Written := by
  obtain ⟨kind, hreach, hread⟩ := nextPiece_token h
  have hcontent {content : String} {petscii : Bool} (htoken : token = .text content petscii)
      (hends : ∀ c ∈ content.toList, endsLine c = false) : token.Written := by
    subst htoken
    intro c hc
    obtain ⟨hquote, hescape⟩ := hplain content petscii rfl c hc
    exact ⟨hquote, hescape, hends c hc⟩
  rcases TokenClass.read_cases hread with ⟨sign, rfl⟩ | ⟨n, rfl⟩ | ⟨rfl, htoken⟩ | ⟨rfl, htoken⟩ |
    ⟨hclass, rfl⟩
  · trivial
  · exact TokenClass.read_literal hreach hread
  · obtain ⟨rest, count, hcount, hdrop⟩ := TokenClass.text_reach hreach
    refine hcontent htoken fun c hc => endsLine_of_mem_quote hcount c ?_
    exact hdrop ▸ mem_of_mem_quotedContent hc
  · obtain ⟨rest, count, hcount, hdrop⟩ := TokenClass.petsciiText_reach hreach
    refine hcontent htoken fun c hc => endsLine_of_mem_quote hcount c ?_
    exact hdrop ▸ mem_of_mem_quotedContent hc
  · rw [TokenKind.Written, String.toList_ofList]
    rcases hclass with rfl | rfl | rfl
    · exact TokenClass.nameText_of_name hreach
    · exact TokenClass.nameText_of_localName hreach
    · exact TokenClass.nameText_of_argument hreach

/-- What closes an operand does not go on with a sign. -/
theorem Closes.stopsSign {rest : List Char} (h : Closes rest) (sign : Punct) :
    ∀ c ∈ rest.head?, sign.goesOnWith c = false := by
  have hall : ∀ sign ∈ Punct.all, closers.any sign.goesOnWith = false := by decide
  exact h.stops (hall sign sign.mem_all)

/-- The text of a token is one piece where it is closed, and is read as the token. -/
theorem nextPiece_chars {token : TokenKind} (h : token.Written) (hsign : token ≠ .punct .ellipsis)
    {rest : List Char} (hrest : Closes rest) :
    nextPiece (token.chars ++ rest) = (token.chars.length, .token token) := by
  cases token with
  | punct sign => exact nextPiece_punct (fun heq => hsign (heq ▸ rfl)) (hrest.stopsSign sign)
  | text content petscii =>
    rw [TokenKind.chars_text]
    cases petscii with
    | false => exact (nextPiece_text h rest).trans (by simp)
    | true => exact (nextPiece_petsciiText h rest).trans (by simp)
  | number n => exact nextPiece_number h hrest
  | name ident =>
    have hname := nextPiece_name h hrest
    rwa [String.ofList_toList] at hname

end Asm65816
