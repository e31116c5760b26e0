import Asm65816.Proofs.CommentedLines
import Asm65816.Proofs.DottedPrograms
import Asm65816.Proofs.JoinedSources
import Asm65816.Proofs.LetterCase

/-!
# Texts in another letter case

The letters at some bytes of a text are put in their other case. Its comments and lines stay where
they are. Where only words are changed, the names of directives, mnemonics and flow statements, and
these are at the front of a line or behind colons, its tokens are the same ones with those names in
the other case.
-/

namespace Asm65816

/-! ## Texts in another case -/

/-- A character, in its other case if it is chosen. -/
def recaseChar (choice : Bool) (c : Char) : Char := if choice then otherCase c else c

/-- A text that starts at byte `offset`, with the letters at the chosen bytes in their other
case. -/
def recase (chosen : Nat → Bool) (offset : Nat) : List Char → List Char
  | [] => []
  | c :: rest => recaseChar (chosen offset) c :: recase chosen (offset + c.utf8Size) rest

section Characters

variable (choice : Bool)

theorem toUpper_recaseChar (c : Char) : (recaseChar choice c).toUpper = c.toUpper := by
  cases choice with
  | false => rfl
  | true => exact toUpper_otherCase c

theorem utf8Size_recaseChar (c : Char) : (recaseChar choice c).utf8Size = c.utf8Size := by
  cases choice with
  | false => rfl
  | true => exact utf8Size_otherCase c

theorem recaseChar_eq_sign {sign : Char} (h : sign.isAlpha = false) (c : Char) :
    recaseChar choice c = sign ↔ c = sign := by
  rw [← toUpper_eq_sign h, toUpper_recaseChar, toUpper_eq_sign h]

theorem recaseChar_sign {sign : Char} (h : sign.isAlpha = false) :
    recaseChar choice sign = sign :=
  (recaseChar_eq_sign choice h sign).mpr rfl

theorem blankedChar_recaseChar (c : Char) :
    blankedChar (recaseChar choice c) = blankedChar c := by
  have hnewline : recaseChar choice c = '\n' ↔ c = '\n' := recaseChar_eq_sign choice rfl c
  simp only [blankedChar, hnewline, utf8Size_recaseChar]

end Characters

section Recasing

variable (chosen : Nat → Bool)

theorem recase_append (offset : Nat) (first second : List Char) :
    recase chosen offset (first ++ second) =
      recase chosen offset first ++ recase chosen (offset + byteLength first) second := by
  induction first generalizing offset with
  | nil => rfl
  | cons c rest ih =>
    rw [List.cons_append, recase, ih, recase, byteLength_cons, Nat.add_assoc, List.cons_append]

theorem sameCaseless_recase (offset : Nat) (text : List Char) :
    SameCaseless text (recase chosen offset text) := by
  induction text generalizing offset with
  | nil => rfl
  | cons c rest ih => exact SameCaseless.cons_iff.mpr ⟨toUpper_recaseChar _ c, ih _⟩

theorem byteLength_recase (offset : Nat) (text : List Char) :
    byteLength (recase chosen offset text) = byteLength text := by
  induction text generalizing offset with
  | nil => rfl
  | cons c rest ih => rw [recase, byteLength_cons, byteLength_cons, ih, utf8Size_recaseChar]

theorem length_recase (offset : Nat) (text : List Char) :
    (recase chosen offset text).length = text.length := by
  induction text generalizing offset with
  | nil => rfl
  | cons c rest ih => rw [recase, List.length_cons, List.length_cons, ih]

/-- Signs have one case. -/
theorem recase_of_signs {offset : Nat} {text : List Char}
    (h : ∀ c ∈ text, c.isAlpha = false) : recase chosen offset text = text := by
  induction text generalizing offset with
  | nil => rfl
  | cons c rest ih =>
    obtain ⟨hc, hrest⟩ := List.forall_mem_cons.mp h
    rw [recase, recaseChar_sign _ hc, ih hrest]

theorem recase_sign {c : Char} (h : c.isAlpha = false) (hsize : c.utf8Size = 1) (offset : Nat)
    (rest : List Char) :
    recase chosen offset (c :: rest) = c :: recase chosen (offset + 1) rest := by
  rw [recase, recaseChar_sign _ h, hsize]

theorem exists_of_recase_eq {sign : Char} (h : sign.isAlpha = false) {offset : Nat}
    {text tail : List Char} (hrecased : recase chosen offset text = sign :: tail) :
    ∃ rest, text = sign :: rest := by
  have hhead : (recase chosen offset text).head? = some sign := by rw [hrecased, List.head?_cons]
  exact List.head?_eq_some_iff.mp
    (((sameCaseless_recase chosen offset text).head_eq_sign h).mp hhead)

variable {chosen}

/-- A text in which nothing is chosen stays as it is. -/
theorem recase_eq_self {offset : Nat} {text : List Char}
    (h : ∀ place, offset ≤ place → place < offset + byteLength text → chosen place = false) :
    recase chosen offset text = text := by
  induction text generalizing offset with
  | nil => rfl
  | cons c rest ih =>
    rw [byteLength_cons] at h
    have hpos := c.utf8Size_pos
    have hfirst := h offset (Nat.le_refl _) (by omega)
    rw [recase, hfirst, ih fun place hlow hhigh => h place (by omega) (by omega)]
    rfl

/-- The first character stays as it is where it is not chosen. -/
theorem head?_recase {offset : Nat} {text : List Char} (h : chosen offset = false) :
    (recase chosen offset text).head? = text.head? := by
  cases text with
  | nil => rfl
  | cons c rest =>
    rw [recase, h]
    rfl

end Recasing

/-! ## Comments and lines -/

theorem byteLength_blankedChar (c : Char) : byteLength (blankedChar c) = c.utf8Size := by
  rw [← bytesOf_length, bytesOf_blankedChar, List.length_map, String.length_utf8EncodeChar]

section Comments

variable (chosen : Nat → Bool)

/-- Comments are blanked in any letter case. -/
theorem stripFrom_recase (state : CommentState) (offset : Nat) (text : List Char) :
    stripFrom state offset (recase chosen offset text) =
      (recase chosen offset (stripFrom state offset text).1,
        (stripFrom state offset text).2) := by
  have hquote := recase_sign chosen (c := '"') rfl rfl
  have hsemicolon := recase_sign chosen (c := ';') rfl rfl
  have hslash := recase_sign chosen (c := '/') rfl rfl
  have hstar := recase_sign chosen (c := '*') rfl rfl
  have hblank := recase_sign chosen (c := ' ') rfl rfl
  have hescape := recase_sign chosen (c := '\\') rfl rfl
  have hline := recase_sign chosen (c := '\n') rfl rfl
  fun_induction stripFrom state offset text
  case case1 | case2 => simp [recase, stripFrom]
  -- A plain character does not start what its other case does not start.
  case case7 offset c rest hquote hsemicolon hline hblock chars opener hrest ih =>
    rw [recase, stripFrom, utf8Size_recaseChar, ih, hrest, recase]
    · exact mt (recaseChar_eq_sign _ rfl c).mp hquote
    · exact mt (recaseChar_eq_sign _ rfl c).mp hsemicolon
    · intro tail hc htail
      obtain ⟨others, hothers⟩ := exists_of_recase_eq chosen rfl htail
      exact hline others ((recaseChar_eq_sign _ rfl c).mp hc) hothers
    · intro tail hc htail
      obtain ⟨others, hothers⟩ := exists_of_recase_eq chosen rfl htail
      exact hblock others ((recaseChar_eq_sign _ rfl c).mp hc) hothers
  case case11 offset c rest hquote hline hescape chars opener hrest ih =>
    rw [recase, stripFrom, utf8Size_recaseChar, ih, hrest, recase]
    · exact mt (recaseChar_eq_sign _ rfl c).mp hquote
    · exact mt (recaseChar_eq_sign _ rfl c).mp hline
    · intro tail hc htail
      obtain ⟨others, hothers⟩ := exists_of_recase_eq chosen rfl htail
      exact hescape others ((recaseChar_eq_sign _ rfl c).mp hc) hothers
  case case13 offset c rest hline chars opener hrest ih =>
    rw [recase, stripFrom, utf8Size_recaseChar, ih, hrest, recase]
    exact mt (recaseChar_eq_sign _ rfl c).mp hline
  case case15 outer offset c rest hclose chars opener hrest ih =>
    have hblanked : recase chosen offset (blankedChar c) = blankedChar c := by
      refine recase_of_signs chosen fun d hd => ?_
      rcases mem_blankedChar hd with rfl | rfl <;> rfl
    rw [recase, stripFrom, utf8Size_recaseChar, ih, hrest, recase_append, byteLength_blankedChar,
      blankedChar_recaseChar, hblanked]
    intro tail hc htail
    obtain ⟨others, hothers⟩ := exists_of_recase_eq chosen rfl htail
    exact hclose others ((recaseChar_eq_sign _ rfl c).mp hc) hothers
  all_goals simp_all only [stripFrom, Nat.add_assoc, Nat.reduceAdd]

/-- Lines with the letters at the chosen bytes in their other case. -/
def recaseLines : Nat → List (List Char) → List (List Char)
  | _, [] => []
  | offset, line :: rest =>
    recase chosen offset line :: recaseLines (offset + byteLength line + 1) rest

theorem splitLines_recase (offset : Nat) (text : List Char) :
    splitLines (recase chosen offset text) = recaseLines chosen offset (splitLines text) := by
  induction text generalizing offset with
  | nil => rfl
  | cons c rest ih =>
    by_cases hc : c = '\n'
    · rw [hc, recase_sign chosen rfl rfl, splitLines, if_pos rfl, splitLines, if_pos rfl, ih]
      rfl
    · have hother : recaseChar (chosen offset) c ≠ '\n' := mt (recaseChar_eq_sign _ rfl c).mp hc
      rw [recase, splitLines, if_neg hother, ih, splitLines, if_neg hc]
      cases hlines : splitLines rest with
      | nil => exact absurd hlines (splitLines_ne_nil rest)
      | cons line others =>
        simp only [recaseLines, recase, byteLength_cons, Nat.add_assoc]

theorem codeLines_recase (text : String) :
    codeLines (String.ofList (recase chosen 0 text.toList)) =
      recaseLines chosen 0 (codeLines text) := by
  rw [codeLines, String.toList_ofList, stripBlockComments, stripFrom_recase, splitLines_recase]
  rfl

theorem commentWarnings_recase (source : Nat) (text : String) :
    commentWarnings source (String.ofList (recase chosen 0 text.toList)) =
      commentWarnings source text := by
  rw [commentWarnings, String.toList_ofList, stripBlockComments, stripFrom_recase]
  rfl

end Comments

/-! ## Words -/

/-- Whether a name is that of a directive, a mnemonic or a keyword of a flow statement. -/
def isWord (name : String) : Bool :=
  beginsWith '.' name || FlowStatement.isKeyword name || Opcode.isMnemonic name

section Names

variable {name other : String} (h : SameCaseless name.toList other.toList)

include h

theorem beginsWith_caseless {sign : Char} (hsign : sign.isAlpha = false) :
    beginsWith sign other = beginsWith sign name := by
  rw [Bool.eq_iff_iff, beginsWith, beginsWith, beq_iff_eq, beq_iff_eq, h.head_eq_sign hsign]

theorem sameLetters_caseless (word : String) : sameLetters word other = sameLetters word name := by
  rw [sameLetters, h, sameLetters]

theorem isKeyword_caseless : FlowStatement.isKeyword other = FlowStatement.isKeyword name := by
  simp only [FlowStatement.isKeyword, sameLetters_caseless h]

theorem upperAscii_caseless : upperAscii other = upperAscii name := by
  rw [upperAscii, h, upperAscii]

theorem lowerAscii_caseless : lowerAscii other = lowerAscii name := by
  have hlower := congrArg (List.map Char.toLower) h
  simp only [List.map_map, Function.comp_def, toLower_toUpper] at hlower
  rw [lowerAscii, hlower, lowerAscii]

/-- Mnemonics are looked up in any letter case. -/
theorem Opcode.entries_caseless : Opcode.entries other = Opcode.entries name := by
  rw [Opcode.entries, lowerAscii_caseless h, Opcode.entries]

theorem Opcode.isMnemonic_caseless : Opcode.isMnemonic other = Opcode.isMnemonic name := by
  rw [Opcode.isMnemonic, Opcode.entries_caseless h, Opcode.isMnemonic]

theorem isWord_caseless : isWord other = isWord name := by
  rw [isWord, beginsWith_caseless h rfl, isKeyword_caseless h, Opcode.isMnemonic_caseless h, isWord]

end Names

/-- A spelling of a word of letters starts with a letter, and goes on. -/
theorem starts_of_sameLetters {word name : String} (h : sameLetters word name = true)
    (hletter : word.toList.head?.any Char.isAlpha = true) (hlong : 2 ≤ word.toList.length) :
    ∃ c rest, name.toList = c :: rest ∧ c.isAlpha = true ∧ rest ≠ [] := by
  have hsame : word.toList.map Char.toUpper = name.toList.map Char.toUpper := eq_of_beq h
  have hlength := length_of_sameLetters h
  cases hword : word.toList with
  | nil =>
    rw [hword] at hlong
    cases hlong
  | cons first others =>
    cases hname : name.toList with
    | nil =>
      rw [hword, hname] at hlength
      cases hlength
    | cons c rest =>
      rw [hword] at hlong hletter
      rw [hword, hname] at hsame hlength
      obtain ⟨hfirst, -⟩ := List.cons.inj hsame
      have hfirstLetter : first.isAlpha = true := hletter
      refine ⟨c, rest, rfl, ?_, ?_⟩
      · by_cases hc : c = first
        · rwa [hc]
        · exact (isAlpha_of_toUpper_eq hfirst.symm hc).2
      · rintro rfl
        simp only [List.length_cons, List.length_nil] at hlength hlong
        omega

/-- A word starts with a period, or with a letter that something follows. -/
theorem isWord_starts {name : String} (h : isWord name = true) :
    ∃ c rest, name.toList = c :: rest ∧ (c = '.' ∨ c.isAlpha = true ∧ rest ≠ []) := by
  rw [isWord, Bool.or_eq_true, Bool.or_eq_true] at h
  rcases h with (hperiod | hkeyword) | hmnemonic
  · have hhead : name.toList.head? = some '.' := eq_of_beq hperiod
    obtain ⟨rest, hname⟩ := List.head?_eq_some_iff.mp hhead
    exact ⟨'.', rest, hname, .inl rfl⟩
  · have hkeywords : ∀ keyword ∈ FlowStatement.keywords,
        keyword.toList.head?.any Char.isAlpha = true ∧ 2 ≤ keyword.toList.length := by
      decide +kernel
    obtain ⟨keyword, hmem, hletters⟩ := List.any_eq_true.mp hkeyword
    obtain ⟨hletter, hlong⟩ := hkeywords keyword hmem
    obtain ⟨c, rest, hname, hc⟩ := starts_of_sameLetters hletters hletter hlong
    exact ⟨c, rest, hname, .inr hc⟩
  · have hmnemonics : ∀ entry ∈ Opcode.table,
        entry.mnemonic.toList.head?.any Char.isAlpha = true ∧ 2 ≤ entry.mnemonic.toList.length := by
      decide +kernel
    obtain ⟨entry, hmem, hletters⟩ := Opcode.exists_sameLetters hmnemonic
    obtain ⟨hletter, hlong⟩ := hmnemonics entry hmem
    obtain ⟨c, rest, hname, hc⟩ := starts_of_sameLetters hletters hletter hlong
    exact ⟨c, rest, hname, .inr hc⟩

/-- A name that starts at byte `offset`, with the letters at the chosen bytes in their other case if
it is a word. -/
def recaseWord (chosen : Nat → Bool) (offset : Nat) (name : String) : String :=
  if isWord name then String.ofList (recase chosen offset name.toList) else name

theorem recaseWord_caseless (chosen : Nat → Bool) (offset : Nat) (name : String) :
    SameCaseless name.toList (recaseWord chosen offset name).toList := by
  unfold recaseWord
  split
  · rw [String.toList_ofList]
    exact sameCaseless_recase chosen offset name.toList
  · rfl

theorem recaseWord_eq_self {chosen : Nat → Bool} {offset : Nat} {name : String}
    (h : ∀ place, offset ≤ place → place < offset + byteLength name.toList →
      chosen place = false) : recaseWord chosen offset name = name := by
  rw [recaseWord, recase_eq_self h, String.ofList_toList, ite_self]

/-! ## Tokens -/

def TokenKind.recased (chosen : Nat → Bool) (offset : Nat) : TokenKind → TokenKind
  | name ident => name (recaseWord chosen offset ident)
  | kind => kind

/-- A token of a text in which the letters at the chosen bytes are in their other case. -/
def Token.recased (chosen : Nat → Bool) (token : Token) : Token :=
  ⟨token.kind.recased chosen token.span.start, token.span,
    recaseWord chosen token.span.start token.text⟩

/-- A byte lies within a span. -/
def Span.Covers (span : Span) (place : Nat) : Prop := span.start ≤ place ∧ place < span.stop

/-- A token has a byte that is chosen. -/
def Token.IsChosen (chosen : Nat → Bool) (token : Token) : Prop :=
  ∃ place, token.span.Covers place ∧ chosen place = true

/-- The tokens of a text that starts at byte `offset`, each from the class that reaches furthest. -/
inductive Lexes (source : Nat) : Nat → List Char → List Token → Prop where
  | done (offset : Nat) : Lexes source offset [] []
  | skip {offset : Nat} {kind : TokenClass} {chars rest : List Char} {tokens : List Token}
      (taken : TokenClass.furthest? (chars ++ rest) = some (kind, chars.length))
      (nonempty : chars ≠ []) (skipped : kind.read chars = .skipped)
      (later : Lexes source (offset + byteLength chars) rest tokens) :
      Lexes source offset (chars ++ rest) tokens
  | token {offset : Nat} {kind : TokenClass} {chars rest : List Char} {found : TokenKind}
      {tokens : List Token}
      (taken : TokenClass.furthest? (chars ++ rest) = some (kind, chars.length))
      (nonempty : chars ≠ []) (read : kind.read chars = .token found)
      (later : Lexes source (offset + byteLength chars) rest tokens) :
      Lexes source offset (chars ++ rest)
        (⟨found, ⟨source, offset, offset + byteLength chars⟩, String.ofList chars⟩ :: tokens)

section Lexing

variable {source offset : Nat} {text chars rest : List Char} {tokens : List Token}
  {kind : TokenClass}

theorem TokenClass.belongs_of_taken
    (taken : furthest? (chars ++ rest) = some (kind, chars.length)) :
    chars ∈ kind.pattern := by
  obtain ⟨word, behind, htext, hlength, -, hbelongs, -⟩ := longestStart_of_furthest? taken
  rwa [(List.append_inj htext hlength.symm).1]

/-- The results of a text are those of its first piece and of the rest. -/
theorem resultsFrom_of_taken
    (taken : TokenClass.furthest? (chars ++ rest) = some (kind, chars.length))
    (nonempty : chars ≠ []) :
    resultsFrom source offset (cutLine (chars ++ rest)) =
      (Piece.result? source offset ⟨chars, kind.read chars⟩).toList ++
        resultsFrom source (offset + byteLength chars) (cutLine rest) := by
  have hnext : nextPiece (chars ++ rest) = (chars.length, kind.read chars) := by
    unfold nextPiece
    rw [taken]
    simp only [List.take_left]
  rw [cutLine_append nonempty (by rw [hnext]), hnext]
  rfl

/-- A text that no class takes a piece of has a report. -/
theorem Lexes.of_none (h : TokenClass.furthest? text = none)
    (hresults : resultsFrom source offset (cutLine text) = tokens.map .ok) :
    Lexes source offset text tokens := by
  by_cases hsome : text = []
  · subst hsome
    rw [cutLine] at hresults
    obtain rfl := List.map_eq_nil_iff.mp hresults.symm
    exact .done offset
  · obtain ⟨chars, rest, rfl, hnext, hcut⟩ := nextPiece_cut hsome
    have hinvalid : (nextPiece (chars ++ rest)).2 = .invalid := by
      unfold nextPiece
      rw [h]
      dsimp only
      split <;> rfl
    rw [cutLine_append hcut.ne_nil hnext, hinvalid] at hresults
    obtain ⟨token, others, -, hcons, -⟩ := List.map_eq_cons_iff.mp hresults.symm
    cases hcons

/-- A line is read as the tokens that the classes take from it. -/
theorem lexLine_iff_lexes :
    lexLine source offset text = .ok tokens ↔ Lexes source offset text tokens := by
  rw [lexLine_eq_ok]
  constructor
  · intro h
    induction hlength : text.length using Nat.strongRecOn generalizing text offset tokens with
    | ind count ih =>
      cases hfurthest : TokenClass.furthest? text with
      | none => exact .of_none hfurthest h
      | some found =>
        obtain ⟨kind, reached⟩ := found
        obtain ⟨chars, rest, rfl, rfl, hsome, hbelongs, -⟩ :=
          TokenClass.longestStart_of_furthest? hfurthest
        have hpos : 0 < chars.length := List.length_pos_iff.mpr hsome
        rw [List.length_append] at hlength
        rw [resultsFrom_of_taken hfurthest hsome, Piece.result?] at h
        cases hread : kind.read chars with
        | skipped =>
          rw [hread] at h
          exact .skip hfurthest hsome hread (ih rest.length (by omega) h rfl)
        | token found =>
          rw [hread] at h
          obtain ⟨first, others, rfl, hfirst, hothers⟩ := List.map_eq_cons_iff.mp h.symm
          cases hfirst
          exact .token hfurthest hsome hread (ih rest.length (by omega) hothers.symm rfl)
        | invalid =>
          rw [hread] at h
          obtain ⟨token, others, -, hcons, -⟩ := List.map_eq_cons_iff.mp h.symm
          cases hcons
  · intro h
    induction h with
    | done =>
      rw [cutLine]
      rfl
    | skip taken nonempty skipped later ih =>
      rw [resultsFrom_of_taken taken nonempty, ih, skipped]
      rfl
    | token taken nonempty read later ih =>
      rw [resultsFrom_of_taken taken nonempty, ih, read]
      rfl

theorem Lexes.offset_le (h : Lexes source offset text tokens) :
    ∀ token ∈ tokens, offset ≤ token.span.start := by
  induction h with
  | done => simp
  | skip taken nonempty skipped later ih =>
    exact fun token htoken => Nat.le_trans (Nat.le_add_right _ _) (ih token htoken)
  | token taken nonempty read later ih =>
    exact List.forall_mem_cons.mpr ⟨Nat.le_refl _,
      fun token htoken => Nat.le_trans (Nat.le_add_right _ _) (ih token htoken)⟩

theorem Lexes.covers_head (h : Lexes source offset text tokens)
    (hcovered : ∃ token ∈ tokens, token.span.Covers offset) :
    ∃ first others, tokens = first :: others ∧ first.span.Covers offset := by
  cases h with
  | done => simp at hcovered
  | skip taken nonempty skipped later =>
    obtain ⟨token, htoken, hstart, -⟩ := hcovered
    have hlow := later.offset_le token htoken
    have hpos := byteLength_pos nonempty
    omega
  | token taken nonempty read later =>
    exact ⟨_, _, rfl, Nat.le_refl _, Nat.lt_add_of_pos_right (byteLength_pos nonempty)⟩

/-! ## Tokens in another case -/

variable {chosen : Nat → Bool}

/-- A token in which nothing is chosen stays as it is. -/
theorem Token.recased_of_read {found : TokenKind} {stop : Nat}
    (read : kind.read chars = .token found)
    (hfree : ∀ place, offset ≤ place → place < offset + byteLength chars → chosen place = false) :
    Token.recased chosen ⟨found, ⟨source, offset, stop⟩, String.ofList chars⟩ =
      ⟨found, ⟨source, offset, stop⟩, String.ofList chars⟩ := by
  have hword : recaseWord chosen offset (String.ofList chars) = String.ofList chars := by
    refine recaseWord_eq_self fun place hlow hhigh => hfree place hlow ?_
    rwa [String.toList_ofList] at hhigh
  have hkind : found.recased chosen offset = found := by
    rcases TokenClass.read_cases read with
      ⟨sign, rfl⟩ | ⟨number, rfl⟩ | ⟨-, rfl⟩ | ⟨-, rfl⟩ | ⟨-, rfl⟩
    · rfl
    · rfl
    · rfl
    · rfl
    · exact congrArg TokenKind.name hword
  rw [Token.recased, hkind, hword]

theorem Lexes.recased_eq_self (h : Lexes source offset text tokens) :
    ∀ token ∈ tokens, ¬token.IsChosen chosen → token.recased chosen = token := by
  induction h with
  | done => simp
  | skip taken nonempty skipped later ih => exact ih
  | token taken nonempty read later ih =>
    refine List.forall_mem_cons.mpr ⟨fun hfree => Token.recased_of_read read ?_, ih⟩
    exact fun place hlow hhigh =>
      Bool.eq_false_iff.mpr fun hchosen => hfree ⟨place, ⟨hlow, hhigh⟩, hchosen⟩

/-- Blanks and comments do not start like a marked number or an argument. -/
theorem TokenClass.unmarked_of_skipped (belongs : chars ∈ kind.pattern)
    (skipped : kind.read chars = .skipped) :
    chars.head? ≠ some '0' ∧ chars.head? ≠ some '\\' := by
  have hstarts (c : Char) (hhead : chars.head? = some c) : kind.startsWith c = true := by
    obtain ⟨word, rfl⟩ := List.head?_eq_some_iff.mp hhead
    exact startsWith_of_belongs belongs
  rcases read_of_belongs belongs with ⟨rfl | rfl, -⟩ | ⟨token, hread, -⟩ | ⟨hread, -⟩
  · exact ⟨fun hhead => absurd (hstarts _ hhead) (by decide),
      fun hhead => absurd (hstarts _ hhead) (by decide)⟩
  · exact ⟨fun hhead => absurd (hstarts _ hhead) (by decide),
      fun hhead => absurd (hstarts _ hhead) (by decide)⟩
  · cases skipped.symm.trans hread
  · cases skipped.symm.trans hread

/-- A colon does not start like a marked number or an argument. -/
theorem TokenClass.unmarked_of_colon (belongs : chars ∈ kind.pattern)
    (read : kind.read chars = .token (.punct .colon)) :
    chars.head? ≠ some '0' ∧ chars.head? ≠ some '\\' := by
  have hcolon : ∀ spelling ∈ Punct.spellings, spelling.2 = .colon → spelling.1 = [':'] := by
    decide
  rcases read_of_belongs belongs with ⟨-, hread⟩ | ⟨token, hread, hpattern⟩ | ⟨hread, -⟩
  · cases read.symm.trans hread
  · cases read.symm.trans hread
    obtain rfl : chars = [':'] := hcolon _ hpattern rfl
    decide
  · cases read.symm.trans hread

/-- A piece in which nothing is chosen is taken as before. What follows it does not count, unless
it starts like a marked number or an argument. -/
theorem TokenClass.furthest?_unchosen (nonempty : chars ≠ [])
    (hsame : recase chosen offset chars = chars)
    (hnext : (recase chosen (offset + byteLength chars) rest).head? = rest.head? ∨
      chars.head? ≠ some '0' ∧ chars.head? ≠ some '\\') :
    furthest? (recase chosen offset (chars ++ rest)) = furthest? (chars ++ rest) := by
  obtain ⟨c, others, rfl⟩ := List.exists_cons_of_ne_nil nonempty
  refine furthest?_caseless (sameCaseless_recase chosen offset _) (.inl ?_) ?_
  · rw [recase_append, hsame]
    rfl
  · rcases hnext with hnext | hmarks
    · refine .inl ?_
      rw [recase_append, hsame]
      cases others with
      | nil =>
        rwa [List.head?_eq_getElem?, List.head?_eq_getElem?] at hnext
      | cons d more => rfl
    · exact .inr hmarks

/-- A class that takes a name takes every text for one. -/
theorem TokenClass.read_name {ident : String} (read : kind.read chars = .token (.name ident)) :
    ident = String.ofList chars ∧
      ∀ word, kind.read word = .token (.name (String.ofList word)) := by
  rcases read_cases read with ⟨_, h⟩ | ⟨_, h⟩ | ⟨-, h⟩ | ⟨-, h⟩ | ⟨rfl | rfl | rfl, h⟩
  · cases h
  · cases h
  · cases h
  · cases h
  · exact ⟨TokenKind.name.inj h, fun word => rfl⟩
  · exact ⟨TokenKind.name.inj h, fun word => rfl⟩
  · exact ⟨TokenKind.name.inj h, fun word => rfl⟩

/-- A word is taken in any letter case. -/
theorem TokenClass.furthest?_word (belongs : chars ∈ kind.pattern)
    (read : kind.read chars = .token (.name (String.ofList chars)))
    (hword : isWord (String.ofList chars) = true) :
    furthest? (recase chosen offset (chars ++ rest)) = furthest? (chars ++ rest) := by
  obtain ⟨c, others, hchars, hc⟩ := isWord_starts hword
  rw [String.toList_ofList] at hchars
  subst hchars
  refine furthest?_caseless (sameCaseless_recase chosen offset _) ?_ (.inr ?_)
  · rcases hc with rfl | ⟨hletter, hsome⟩
    · refine .inl ?_
      rw [List.cons_append, recase, recaseChar_sign _ rfl]
      rfl
    · obtain ⟨d, more, rfl⟩ := List.exists_cons_of_ne_nil hsome
      have hnamed : kind = name := by
        have hstarts := startsWith_of_belongs belongs
        rcases read_cases read with ⟨_, h⟩ | ⟨_, h⟩ | ⟨-, h⟩ | ⟨-, h⟩ | ⟨rfl | rfl | rfl, -⟩
        · cases h
        · cases h
        · cases h
        · cases h
        · rfl
        · obtain rfl : c = '@' := eq_of_beq hstarts
          cases hletter
        · obtain rfl : c = '\\' := eq_of_beq hstarts
          cases hletter
      subst hnamed
      obtain ⟨first, run, -, hrun, hcons⟩ := mem_oneOf_mul.mp belongs
      obtain ⟨rfl, rfl⟩ := List.cons.inj hcons
      have hd := mem_star_oneOf.mp hrun d List.mem_cons_self
      refine .inr fun hquote => ?_
      cases hquote
      cases hd
  · rcases hc with rfl | ⟨hletter, -⟩
    · exact ⟨by simp, by simp⟩
    · constructor
      · rintro ⟨⟩
        cases hletter
      · rintro ⟨⟩
        cases hletter

/-- A word is the next token in any letter case. -/
theorem Lexes.recased_word {ident : String}
    (taken : TokenClass.furthest? (chars ++ rest) = some (kind, chars.length))
    (nonempty : chars ≠ []) (read : kind.read chars = .token (.name ident))
    (hword : isWord ident = true)
    (hlater : Lexes source (offset + byteLength chars)
      (recase chosen (offset + byteLength chars) rest) tokens) :
    Lexes source offset (recase chosen offset (chars ++ rest))
      (Token.recased chosen
        ⟨.name ident, ⟨source, offset, offset + byteLength chars⟩, String.ofList chars⟩ ::
          tokens) := by
  obtain ⟨rfl, hnames⟩ := TokenClass.read_name read
  have hrecased : recaseWord chosen offset (String.ofList chars) =
      String.ofList (recase chosen offset chars) := by
    rw [recaseWord, if_pos hword, String.toList_ofList]
  have htaken : TokenClass.furthest? (recase chosen offset chars ++
      recase chosen (offset + byteLength chars) rest) =
        some (kind, (recase chosen offset chars).length) := by
    rw [← recase_append, TokenClass.furthest?_word (TokenClass.belongs_of_taken taken) read hword,
      taken, length_recase]
  have hsome : recase chosen offset chars ≠ [] := by
    rwa [← List.length_pos_iff, length_recase, List.length_pos_iff]
  have hbehind : Lexes source (offset + byteLength (recase chosen offset chars))
      (recase chosen (offset + byteLength chars) rest) tokens := by
    rwa [byteLength_recase]
  have hcut := Lexes.token htaken hsome (hnames _) hbehind
  rw [byteLength_recase, ← hrecased, ← recase_append] at hcut
  exact hcut

/-- The front of a text stays as it is, or its first token has a byte that is chosen. -/
theorem Lexes.head_recased (h : Lexes source offset text tokens)
    (hcovered : ∀ place, offset ≤ place → place < offset + byteLength text →
      chosen place = true → ∃ token ∈ tokens, token.span.Covers place) :
    (recase chosen offset text).head? = text.head? ∨
      ∃ first others, tokens = first :: others ∧ first.IsChosen chosen := by
  by_cases hplace : chosen offset = true
  · by_cases htext : text = []
    · exact .inl (by rw [htext, recase])
    · have hpos := byteLength_pos htext
      obtain ⟨first, others, rfl, hcovers⟩ :=
        h.covers_head (hcovered _ (Nat.le_refl _) (by omega) hplace)
      exact .inr ⟨first, others, rfl, offset, hcovers, hplace⟩
  · exact .inl (head?_recase (Bool.eq_false_iff.mpr hplace))

/-- In a text whose chosen bytes are in words, and at the front or behind colons, the tokens are
the same ones with the words in the other case. -/
theorem Lexes.recased (h : Lexes source offset text tokens)
    (hplaced : tokens.IsChain fun before token =>
      token.IsChosen chosen → before.kind = .punct .colon)
    (hwords : ∀ token ∈ tokens, token.IsChosen chosen →
      ∃ ident, token.kind = .name ident ∧ isWord ident = true)
    (hcovered : ∀ place, offset ≤ place → place < offset + byteLength text →
      chosen place = true → ∃ token ∈ tokens, token.span.Covers place) :
    Lexes source offset (recase chosen offset text) (tokens.map (Token.recased chosen)) := by
  induction h with
  | done => exact .done _
  | @skip offset kind chars rest tokens taken nonempty skipped later ih =>
    rw [byteLength_append] at hcovered
    have hsame : recase chosen offset chars = chars := by
      refine recase_eq_self fun place hlow hhigh => Bool.eq_false_iff.mpr fun hchosen => ?_
      obtain ⟨token, htoken, hstart, -⟩ := hcovered place hlow (by omega) hchosen
      have hbehind := later.offset_le token htoken
      omega
    have hmarks := TokenClass.unmarked_of_skipped (TokenClass.belongs_of_taken taken) skipped
    have htaken := (TokenClass.furthest?_unchosen nonempty hsame (.inr hmarks)).trans taken
    rw [recase_append, hsame] at htaken ⊢
    refine .skip htaken nonempty skipped (ih hplaced hwords fun place hlow hhigh => ?_)
    exact hcovered place (by omega) (by omega)
  | @token offset kind chars rest found tokens taken nonempty read later ih =>
    rw [byteLength_append] at hcovered
    obtain ⟨hfirst, hothers⟩ := List.isChain_cons.mp hplaced
    have hbehind : ∀ place, offset + byteLength chars ≤ place →
        place < offset + byteLength chars + byteLength rest → chosen place = true →
          ∃ token ∈ tokens, token.span.Covers place := by
      intro place hlow hhigh hchosen
      obtain ⟨token, htoken, hcovers⟩ := hcovered place (by omega) (by omega) hchosen
      rcases List.mem_cons.mp htoken with rfl | htoken
      · exact absurd hlow (Nat.not_le_of_lt hcovers.2)
      · exact ⟨token, htoken, hcovers⟩
    have hlater := ih hothers (fun token htoken => hwords token (List.mem_cons_of_mem _ htoken))
      hbehind
    by_cases hchosen :
        ∃ place, offset ≤ place ∧ place < offset + byteLength chars ∧ chosen place = true
    · obtain ⟨place, hlow, hhigh, hplace⟩ := hchosen
      obtain ⟨ident, hfound, hword⟩ :=
        hwords _ List.mem_cons_self ⟨place, ⟨hlow, hhigh⟩, hplace⟩
      obtain rfl : found = .name ident := hfound
      exact Lexes.recased_word taken nonempty read hword hlater
    · have hfree : ∀ place, offset ≤ place → place < offset + byteLength chars →
          chosen place = false :=
        fun place hlow hhigh => Bool.eq_false_iff.mpr fun hplace =>
          hchosen ⟨place, hlow, hhigh, hplace⟩
      have hsame := recase_eq_self hfree
      have hnext : (recase chosen (offset + byteLength chars) rest).head? = rest.head? ∨
          chars.head? ≠ some '0' ∧ chars.head? ≠ some '\\' := by
        refine (later.head_recased hbehind).imp_right ?_
        -- A word stands behind a colon.
        rintro ⟨first, others, rfl, hmarked⟩
        have hcolon : found = .punct .colon := hfirst first rfl hmarked
        subst hcolon
        exact TokenClass.unmarked_of_colon (TokenClass.belongs_of_taken taken) read
      have htaken := (TokenClass.furthest?_unchosen nonempty hsame hnext).trans taken
      rw [recase_append, hsame] at htaken ⊢
      rw [List.map_cons, Token.recased_of_read read hfree]
      exact .token htaken nonempty read hlater

end Lexing

end Asm65816
