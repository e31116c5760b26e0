import Asm65816.Proofs.LinePositions
import Asm65816.Proofs.WrittenTokens

/-!
# Lines that are spelled out

A text spells tokens when it is cut into their texts, with single blanks between some of them. Each
piece is judged together with all that follows it, so that what was spelled stays so when more is
put in front. A text that spells the tokens of a statement is read as that statement.
-/

namespace Asm65816

/-! ## Texts of one line -/

/-- A text that is read as it stands, in the given state: no comment is blanked in it, and it does
not go on in another line. -/
structure OneLine (state : CommentState) (text : List Char) : Prop where
  stripped : ∀ offset, stripFrom state offset text = (text, none)
  newline : '\n' ∉ text

namespace OneLine

variable {c : Char} {text rest : List Char}

/-- A character that opens no quoted text and no comment stands as it is. -/
theorem cons (hquote : c ≠ '"') (hmark : c ≠ ';') (hnewline : c ≠ '\n')
    (hslash : c = '/' → ∀ d ∈ text.head?, d ≠ '/' ∧ d ≠ '*') (h : OneLine .code text) :
    OneLine .code (c :: text) where
  stripped offset := by
    rw [stripFrom, h.stripped]
    · exact hquote
    · exact hmark
    · rintro rest rfl rfl
      exact (hslash rfl '/' rfl).1 rfl
    · rintro rest rfl rfl
      exact (hslash rfl '*' rfl).2 rfl
  newline := List.not_mem_cons_of_ne_of_not_mem hnewline.symm h.newline

/-- The characters that mean something before a line is cut into pieces. -/
def marks : List Char := ['"', ';', '/', '\n']

theorem append (hplain : ∀ c ∈ text, c ∉ marks) (h : OneLine .code rest) :
    OneLine .code (text ++ rest) := by
  induction text with
  | nil => exact h
  | cons c others ih =>
    have hc := hplain c List.mem_cons_self
    simp only [marks, List.mem_cons, List.not_mem_nil, or_false, not_or] at hc
    obtain ⟨hquote, hmark, hslash, hnewline⟩ := hc
    have hothers := ih fun d hd => hplain d (List.mem_cons_of_mem c hd)
    exact hothers.cons hquote hmark hnewline fun heq => absurd heq hslash

/-- A plain content and the quote behind it stand as they are within a quoted text. -/
theorem quoted {content : List Char} (hcontent : PlainContent content) (h : OneLine .code rest) :
    OneLine .quoted (content ++ '"' :: rest) := by
  induction content with
  | nil =>
    refine ⟨fun offset => ?_, List.not_mem_cons_of_ne_of_not_mem (by decide) h.newline⟩
    rw [List.nil_append, stripFrom, h.stripped]
  | cons c others ih =>
    obtain ⟨hquote, hescape, hends⟩ := hcontent c List.mem_cons_self
    obtain ⟨hstripped, hnewline⟩ := ih hcontent.tail
    have hc : c ≠ '\n' := by
      rintro rfl
      cases hends
    refine ⟨fun offset => ?_, List.not_mem_cons_of_ne_of_not_mem hc.symm hnewline⟩
    rw [List.cons_append, stripFrom, hstripped]
    · exact hquote
    · exact hc
    · exact fun rest heq _ => hescape heq

/-- A quoted text stands as it is. -/
theorem quotes {content : List Char} (hcontent : PlainContent content) (h : OneLine .code rest) :
    OneLine .code ('"' :: (content ++ ['"']) ++ rest) := by
  have hquoted := h.quoted hcontent
  have htext : '"' :: (content ++ ['"']) ++ rest = '"' :: (content ++ '"' :: rest) := by simp
  rw [htext]
  refine ⟨fun offset => ?_, List.not_mem_cons_of_ne_of_not_mem (by decide) hquoted.newline⟩
  rw [stripFrom, hquoted.stripped]

/-- A sign stands as it is where nothing goes on with it. -/
theorem sign {sign : Punct} (hrest : ∀ c ∈ rest.head?, sign.goesOnWith c = false)
    (h : OneLine .code rest) : OneLine .code (sign.spelling.toList ++ rest) := by
  by_cases hslash : sign = .slash
  · subst hslash
    refine h.cons (by decide) (by decide) (by decide) fun _ c hc => ?_
    have hmarks := (Bool.or_eq_false_iff.mp (hrest c hc)).2
    obtain ⟨hline, hblock⟩ := Bool.or_eq_false_iff.mp hmarks
    exact ⟨beq_eq_false_iff_ne.mp hline, beq_eq_false_iff_ne.mp hblock⟩
  · have hall : ∀ sign ∈ Punct.all, sign ≠ .slash →
        sign.spelling.toList.all (fun c => c ∉ marks) = true := by
      decide
    exact h.append (List.all_iff_forall_prop.mp (hall sign sign.mem_all hslash))

end OneLine

/-- Characters of a kind that has none of the marks are none of them. -/
theorem not_mem_marks {accepts : Char → Bool}
    (hmarks : OneLine.marks.any accepts = false) {c : Char} (hc : accepts c = true) :
    c ∉ OneLine.marks :=
  fun hmem => List.any_eq_false.mp hmarks c hmem hc

theorem NameText.not_mem_marks {text : List Char} (h : NameText text) :
    ∀ c ∈ text, c ∉ OneLine.marks := by
  have hname {chars : List Char} (plain : ∀ c ∈ chars, isNameChar c = true) :
      ∀ c ∈ chars, c ∉ OneLine.marks :=
    fun c hc => Asm65816.not_mem_marks (by decide) (plain c hc)
  cases h with
  | word starts plain =>
    exact List.forall_mem_cons.mpr ⟨Asm65816.not_mem_marks (by decide) starts, hname plain⟩
  | localName _ plain directs =>
    refine List.forall_mem_cons.mpr ⟨by decide, List.forall_mem_append.mpr ⟨hname plain, ?_⟩⟩
    rcases directs with rfl | rfl | rfl
    all_goals exact List.all_iff_forall_prop.mp (by decide)
  | letter known =>
    rcases known with rfl | rfl | rfl
    all_goals exact List.all_iff_forall_prop.mp (by decide)
  | count _ plain =>
    refine List.forall_mem_cons.mpr ⟨by decide, fun c hc => ?_⟩
    exact Asm65816.not_mem_marks (by decide) (plain c hc)

theorem Number.Literal.not_mem_marks {n : Number} (h : n.Literal) :
    ∀ c ∈ n.render.toList, c ∉ OneLine.marks := by
  rw [render_toList h.nonneg, List.forall_mem_append]
  constructor
  · cases n.radix with
    | _ => exact List.all_iff_forall_prop.mp (by decide)
  · intro c hc
    have hdigit := isDigitIn_of_mem_digits hc
    cases hradix : n.radix with
    | _ =>
      rw [hradix] at hdigit
      exact Asm65816.not_mem_marks (by decide) hdigit

/-- The text of a token stands as it is where it is closed. -/
theorem TokenKind.Written.oneLine {token : TokenKind} (h : token.Written) {rest : List Char}
    (hrest : Closes rest) (hline : OneLine .code rest) : OneLine .code (token.chars ++ rest) := by
  cases token with
  | punct sign => exact hline.sign (hrest.stopsSign sign)
  | number n => exact hline.append (Number.Literal.not_mem_marks h)
  | name ident => exact hline.append (NameText.not_mem_marks h)
  | text content petscii =>
    rw [chars_text]
    have htext := hline.quotes h
    cases petscii with
    | false => exact htext
    | true => exact htext.cons (by decide) (by decide) (by decide) nofun

/-! ## Texts that spell tokens -/

/-- The text spells the tokens, up to the rest. -/
inductive Spells : List Char → List TokenKind → List Char → Prop where
  | done {rest : List Char} : Spells rest [] rest
  | blank {text rest : List Char} {tokens : List TokenKind}
      (alone : ∀ c ∈ text.head?, isSpacing c = false) (later : Spells text tokens rest) :
      Spells (' ' :: text) tokens rest
  | token {token : TokenKind} {text rest : List Char} {tokens : List TokenKind}
      (read : nextPiece (token.chars ++ text) = (token.chars.length, .token token))
      (stands : OneLine .code text → OneLine .code (token.chars ++ text))
      (later : Spells text tokens rest) : Spells (token.chars ++ text) (token :: tokens) rest

/-- A piece has at least one character. -/
theorem nextPiece_pos (text : List Char) : 0 < (nextPiece text).1 := by
  unfold nextPiece
  split
  case h_1 hfurthest => exact (TokenClass.reach_of_furthest? hfurthest).2
  case h_2 =>
    split
    · exact Nat.lt_of_lt_of_le Nat.one_pos (Nat.le_add_right _ _)
    · exact Nat.one_pos

/-- The characters of the piece before are passed over. -/
theorem scan_passes (source offset : Nat) (piece rest : List Char) :
    ∃ later, offset ≤ later ∧
      scan source offset piece.length (piece ++ rest) = scan source later 0 rest := by
  induction piece generalizing offset with
  | nil => exact ⟨offset, Nat.le_refl _, rfl⟩
  | cons c others ih =>
    obtain ⟨later, hlater, hscan⟩ := ih (offset + c.utf8Size)
    exact ⟨later, by omega, hscan⟩

/-- A piece that is a token stands where the text starts. -/
theorem scan_token {source offset : Nat} {c : Char} {text : List Char} {length : Nat}
    {kind : TokenKind} (h : nextPiece (c :: text) = (length + 1, .token kind)) :
    ∃ token : Token, scan source offset 0 (c :: text) =
        .ok token :: scan source (offset + c.utf8Size) length text ∧
      token.kind = kind ∧ token.span.start = offset := by
  rw [scan, h]
  exact ⟨_, rfl, rfl, rfl⟩

namespace Spells

variable {text middle rest : List Char} {tokens more : List TokenKind}

theorem append (h : Spells text tokens middle) (hmore : Spells middle more rest) :
    Spells text (tokens ++ more) rest := by
  induction h with
  | done => exact hmore
  | blank alone later ih => exact .blank alone (ih hmore)
  | token read stands later ih => exact .token read stands (ih hmore)

/-- A sign is spelled where nothing goes on with it. -/
theorem sign {sign : Punct} (hsign : sign ≠ .ellipsis)
    (hnext : ∀ c ∈ text.head?, sign.goesOnWith c = false) (later : Spells text tokens rest) :
    Spells (sign.spelling.toList ++ text) (.punct sign :: tokens) rest := by
  have hread : nextPiece ((TokenKind.punct sign).chars ++ text) =
      ((TokenKind.punct sign).chars.length, .token (.punct sign)) :=
    nextPiece_punct hsign hnext
  exact .token hread (OneLine.sign hnext) later

/-- A token is spelled where it is closed. -/
theorem closed {token : TokenKind} (h : token.Written) (hsign : token ≠ .punct .ellipsis)
    (hnext : Closes text) (later : Spells text tokens rest) :
    Spells (token.chars ++ text) (token :: tokens) rest :=
  .token (nextPiece_chars h hsign hnext) (h.oneLine hnext) later

/-- A text that spells tokens to its end is one line. -/
theorem oneLine (h : Spells text tokens []) : OneLine .code text := by
  generalize hrest : ([] : List Char) = rest at h
  induction h with
  | done =>
    subst hrest
    exact ⟨fun offset => rfl, List.not_mem_nil⟩
  | blank alone later ih =>
    exact (ih hrest).cons (by decide) (by decide) (by decide) nofun
  | token read stands later ih => exact stands (ih hrest)

/-- A text that spells tokens is cut into them. -/
theorem scan (h : Spells text tokens []) (source offset : Nat) :
    ∃ found : List Token, scan source offset 0 text = found.map .ok ∧
      found.map Token.kind = tokens ∧ ∀ token ∈ found, offset ≤ token.span.start := by
  generalize hrest : ([] : List Char) = rest at h
  induction h generalizing offset with
  | done =>
    subst hrest
    exact ⟨[], rfl, rfl, by simp⟩
  | @blank text rest tokens alone later ih =>
    obtain ⟨found, hscan, hkinds, hstarts⟩ := ih (offset + ' '.utf8Size) hrest
    refine ⟨found, ?_, hkinds, fun token htoken => ?_⟩
    · rw [Asm65816.scan, nextPiece_blank alone]
      exact hscan
    · exact Nat.le_trans (Nat.le_add_right _ _) (hstarts token htoken)
  | @token kind text rest tokens read stands later ih =>
    have hpos : 0 < kind.chars.length := by
      have hpiece := nextPiece_pos (kind.chars ++ text)
      rwa [read] at hpiece
    obtain ⟨c, others, hchars⟩ := List.exists_cons_of_length_pos hpos
    rw [hchars, List.cons_append] at read ⊢
    obtain ⟨token, htoken, hkind, hplace⟩ := scan_token read
    obtain ⟨start, hstart, hpassed⟩ := scan_passes source (offset + c.utf8Size) others text
    obtain ⟨found, hscan, hkinds, hstarts⟩ := ih start hrest
    refine ⟨token :: found, ?_, congrArg₂ List.cons hkind hkinds, ?_⟩
    · rw [htoken, hpassed, hscan]
      rfl
    · refine List.forall_mem_cons.mpr ⟨Nat.le_of_eq hplace.symm, fun other hother => ?_⟩
      have hbehind := hstarts other hother
      omega

/-- A text that spells tokens is read as them. Behind a blank none of them stands in the first
column. -/
theorem lexLine (h : Spells text tokens []) (alone : ∀ c ∈ text.head?, isSpacing c = false)
    (source offset : Nat) :
    ∃ found : List Token, lexLine source offset (' ' :: text) = .ok found ∧
      found.map Token.kind = tokens ∧ ∀ token ∈ found, offset < token.span.start := by
  obtain ⟨found, hscan, hkinds, hstarts⟩ := h.scan source (offset + ' '.utf8Size)
  refine ⟨found, ?_, hkinds, fun token htoken => ?_⟩
  · have hblank : Asm65816.scan source offset 0 (' ' :: text) = found.map .ok := by
      rw [Asm65816.scan, nextPiece_blank alone]
      exact hscan
    rw [Asm65816.lexLine, hblank, failures_map_ok, filterMap_toOption_map_ok]
  · exact Nat.lt_of_lt_of_le (Nat.lt_add_of_pos_right (by decide)) (hstarts token htoken)

end Spells

/-! ## Reading what is spelled -/

theorem splitLines_eq {text : List Char} (h : '\n' ∉ text) : splitLines text = [text] := by
  induction text with
  | nil => rfl
  | cons c rest ih =>
    have hc : c ≠ '\n' := fun heq => h (heq ▸ List.mem_cons_self)
    rw [splitLines, if_neg hc, ih fun hrest => h (List.mem_cons_of_mem c hrest)]

/-- A source of one line has the line that this text is read as. -/
theorem readSource_oneLine {text : String} (h : OneLine .code text.toList) (source : Nat)
    (file : String) (includedFrom : List IncludeSite) :
    ∃ location, ∀ line, readLine location text.toList = .ok (some line) →
      readSource source file text includedFrom = .ok ⟨[line], []⟩ := by
  refine ⟨⟨file, 1, ⟨source, 0, 0 + byteLength (trimEnd text.toList)⟩, includedFrom⟩, ?_⟩
  intro line hline
  rw [readSource, stripBlockComments, h.stripped]
  dsimp only
  rw [splitLines_eq h.newline, readLines, readLines, hline]
  rfl

/-- A line that spells a name and the tokens of operands behind a blank is one statement. -/
theorem readLine_spelled {text : List Char} {name : String} {tokens : List Token}
    {items : List Expr} (h : Spells text (.name name :: tokens.map Token.kind) [])
    (alone : ∀ c ∈ text.head?, isSpacing c = false) (list : ItemsTree tokens items)
    (location : Location) :
    ∃ line statement, readLine location (' ' :: text) = .ok (some line) ∧
      line.body = .statements none [statement] ∧ statement.name.node = name ∧
        statement.operands = items ∧ statement.ellipsis = false := by
  obtain ⟨found, hlex, hkinds, hstarts⟩ :=
    h.lexLine alone location.span.source location.span.start
  obtain ⟨first, behind, rfl, hfirst, hbehind⟩ := List.map_eq_cons_iff.mp hkinds
  have hstart := Nat.ne_of_gt (hstarts first List.mem_cons_self)
  obtain ⟨list⟩ := list.sameKinds hbehind
  -- The name does not stand in the first column, and so it is no label.
  have hcolumn : FirstColumn location.span.start (first :: behind) := by
    intro token second rest hcons hplace
    cases hcons
    exact absurd hplace hstart
  let tree : LineTree (first :: behind) := .statements (.one (.operands hfirst list))
  have hlast := List.getLast?_eq_some_getLast (List.cons_ne_nil first behind)
  obtain ⟨hbody, hlabel⟩ := tree.readBody ⟨hcolumn, trivial⟩ location.span.source
    ((first :: behind).getLast (List.cons_ne_nil _ _)).span.stop
  refine ⟨_, .over first name behind items false,
    (readLine_eq_ok hlex hlast).mpr ⟨hlabel, _, hbody, rfl⟩, ?_, rfl, rfl, rfl⟩
  exact if_neg hstart

end Asm65816
