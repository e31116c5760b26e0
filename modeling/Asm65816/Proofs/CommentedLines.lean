import Asm65816.Proofs.CommentParts
import Asm65816.Proofs.LineCovers
import Asm65816.Proofs.PastedSources
import Mathlib.Data.List.DropRight

/-!
# Comments and the pieces of lines

The comments of a text are blanked before its lines are cut into pieces, and both look for quoted
texts and line comments on their own. They find the same ones, up to a piece behind which they go
different ways: a quoted text that ends with a quote behind a backslash, which comments still take
for quoted, and a comment or an open quote that a carriage return ends, which comments do not end
there.
-/

namespace Asm65816

open scoped Computability

/-! ## Parts of a line -/

section Lines

variable {rest text other : List Char} {part : TextPart} {parts : List TextPart}

/-- Parts that blank nothing. -/
def Blankless (parts : List TextPart) : Prop := ∀ part ∈ parts, part.isBlock = false

theorem newline_notMem_of_escapesQuotes {afterBackslash : Bool} {content : List Char}
    (h : escapesQuotes (· == '\n') afterBackslash content = true) : '\n' ∉ content := by
  induction content generalizing afterBackslash with
  | nil => exact List.not_mem_nil
  | cons c others ih =>
    obtain ⟨hnewline, -, hothers⟩ := escapesQuotes_cons.mp h
    exact List.not_mem_cons_of_ne_of_not_mem (beq_eq_false_iff_ne.mp hnewline).symm (ih hothers)

/-- A newline that is not in a block comment is a part by itself. -/
theorem PartBefore.eq_newline (h : PartBefore rest part) (hpart : part.isBlock = false)
    (hnewline : '\n' ∈ part.chars) : part = .code '\n' := by
  cases h with
  | code => exact congrArg TextPart.code (List.mem_singleton.mp hnewline).symm
  | quoted within | openQuote within =>
    have hcontent := newline_notMem_of_escapesQuotes within
    simp [TextPart.chars, hcontent] at hnewline
  | lineComment marked within =>
    rcases marked with rfl | rfl
    · simp [TextPart.chars, within] at hnewline
    · simp [TextPart.chars, within] at hnewline
  | blockComment | openBlock => cases hpart

/-- A text whose parts blank nothing can be cut at a newline. -/
theorem PartsTo.atNewline {front behind : List Char} (h : PartsTo rest text parts)
    (hparts : Blankless parts) (htext : text = front ++ '\n' :: (behind ++ rest)) :
    ∃ early late, PartsTo ('\n' :: (behind ++ rest)) text early ∧
      PartsTo rest (behind ++ rest) late ∧ early ⊆ parts ∧ late ⊆ parts := by
  induction h generalizing front with
  | done =>
    have hlength := congrArg List.length htext
    simp only [List.length_append, List.length_cons] at hlength
    omega
  | @part mid part parts first later ih =>
    obtain ⟨hpart, hlater⟩ := List.forall_mem_cons.mp hparts
    have hrest (front' : List Char) (hmid : mid = front' ++ '\n' :: (behind ++ rest)) :
        ∃ early late, PartsTo ('\n' :: (behind ++ rest)) (part.chars ++ mid) early ∧
          PartsTo rest (behind ++ rest) late ∧ early ⊆ part :: parts ∧ late ⊆ part :: parts := by
      obtain ⟨early, late, hearly, hlate, hsub, hsub'⟩ := ih hlater hmid
      exact ⟨part :: early, late, .part first hearly, hlate, List.cons_subset_cons part hsub,
        List.subset_cons_of_subset part hsub'⟩
    rcases List.append_eq_append_iff.mp htext with ⟨front', rfl, hmid⟩ | ⟨inner, hchars, hmid⟩
    · exact hrest front' hmid
    · cases inner with
      | nil => exact hrest [] hmid.symm
      | cons c others =>
        obtain ⟨rfl, hbehind⟩ := List.cons.inj hmid
        have hnewline : '\n' ∈ part.chars := hchars ▸ List.mem_append_right _ List.mem_cons_self
        obtain rfl := first.eq_newline hpart hnewline
        have hlength := congrArg List.length hchars
        simp only [TextPart.chars, List.length_append, List.length_cons, List.length_nil] at hlength
        obtain rfl : others = [] := List.eq_nil_of_length_eq_zero (by omega)
        obtain rfl : behind ++ rest = mid := hbehind
        exact ⟨[], parts, .done, later, List.nil_subset _, List.subset_cons_self _ _⟩

/-- What follows parts can be changed where they go on with the same character. -/
theorem PartsTo.retail (h : PartsTo rest text parts) (hparts : Blankless parts)
    (hnext : nextChar other = nextChar rest) :
    ∃ front, text = front ++ rest ∧ PartsTo other (front ++ other) parts := by
  induction h with
  | done => exact ⟨[], rfl, .done⟩
  | @part mid part parts first later ih =>
    obtain ⟨hpart, hlater⟩ := List.forall_mem_cons.mp hparts
    obtain ⟨front, rfl, hfront⟩ := ih hlater
    refine ⟨part.chars ++ front, (List.append_assoc _ _ _).symm, ?_⟩
    rw [List.append_assoc]
    refine .part (first.congr hpart (.inl ?_)) hfront
    cases front with
    | nil => exact hnext
    | cons c others => rfl

/-- The lines of a text whose parts blank nothing are made of such parts. -/
theorem Parts.ofLine (h : Parts text parts) (hparts : Blankless parts) {line : List Char}
    (hline : line ∈ splitLines text) :
    '\n' ∉ line ∧ ∃ lineParts, Parts line lineParts ∧ Blankless lineParts := by
  induction hlength : text.length using Nat.strongRecOn generalizing text parts with
  | ind count ih =>
    by_cases hnewline : '\n' ∈ text
    · obtain ⟨front, behind, rfl, hfront⟩ := List.eq_append_cons_of_mem hnewline
      rw [splitLines_newline, splitLines_eq hfront, List.singleton_append, List.mem_cons] at hline
      have htext : front ++ '\n' :: behind = front ++ '\n' :: (behind ++ []) := by
        rw [List.append_nil]
      obtain ⟨early, late, hearly, hlate, hsub, hsub'⟩ := h.atNewline hparts htext
      rw [List.append_nil] at hearly hlate
      have hblankless : Blankless early := fun part hpart => hparts part (hsub hpart)
      rcases hline with rfl | hlater
      · have hends : nextChar [] = nextChar ('\n' :: behind) := rfl
        obtain ⟨found, hfound, hfront'⟩ := hearly.retail hblankless hends
        obtain rfl := List.append_cancel_right hfound
        rw [List.append_nil] at hfront'
        exact ⟨hfront, early, hfront', hblankless⟩
      · simp only [List.length_append, List.length_cons] at hlength
        exact ih behind.length (by omega) hlate (fun part hpart => hparts part (hsub' hpart))
          hlater rfl
    · rw [splitLines_eq hnewline, List.mem_singleton] at hline
      exact hline ▸ ⟨hnewline, parts, h, hparts⟩

end Lines

/-! ## Pieces that hide comments -/

namespace Piece

def IsText (piece : Piece) : Prop :=
  ∃ content petscii, piece.reading = .token (.text content petscii)

def IsComment (piece : Piece) : Prop :=
  piece.reading = .skipped ∧ piece.chars ∈ TokenClass.comment.pattern

/-- A quote that is not closed on its line is reported with all that follows it there. -/
def IsOpenQuote (piece : Piece) : Prop := piece.reading = .invalid ∧ piece.chars.head? = some '"'

/-- No comment is opened within the piece. -/
def Hides (piece : Piece) : Prop := piece.IsText ∨ piece.IsComment ∨ piece.IsOpenQuote

/-- Behind the piece, comments are looked for in another way than pieces are cut. -/
def Diverges (piece : Piece) (behind : List Char) : Prop :=
  piece.IsText ∧ ['\\', '"'] <:+ piece.chars ∨
    (piece.IsComment ∨ piece.IsOpenQuote) ∧ behind.head? = some '\r'

theorem Diverges.hides {piece : Piece} {behind : List Char} (h : piece.Diverges behind) :
    piece.Hides := by
  rcases h with ⟨htext, -⟩ | ⟨hmarked, -⟩
  · exact .inl htext
  · exact .inr hmarked

end Piece

section Starts

variable {kind : TokenClass} {c : Char} {word : List Char}

/-- What belongs to a class is reached by it to its end. -/
theorem TokenClass.reach_of_belongs (h : word ∈ kind.pattern) :
    kind.reach word = word.length ∧ 0 < word.length := by
  obtain ⟨hsome, hle⟩ := (kind.munches word).longest word [] (List.append_nil word).symm h
  have hpos := List.length_pos_iff.mpr hsome
  obtain ⟨found, rest, hword, hfound, -⟩ := (kind.munches word).belongs (by omega)
  have hlength := congrArg List.length hword
  rw [List.length_append] at hlength
  exact ⟨by omega, hpos⟩

/-- What belongs to a class starts with one of its characters. -/
theorem TokenClass.startsWith_of_belongs (h : c :: word ∈ kind.pattern) :
    kind.startsWith c = true := by
  refine (Bool.not_eq_false _).mp fun hstarts => ?_
  obtain ⟨hreach, hpos⟩ := reach_of_belongs h
  rw [reach_eq_zero word hstarts] at hreach
  omega

/-- Only texts start with a quote. -/
theorem TokenClass.eq_text_of_quote (h : '"' :: word ∈ kind.pattern) : kind = .text := by
  by_contra hother
  have hmarked : ('"', text) ∈ marked := by decide
  have hzero := reach_eq_zero_of_marked hmarked hother word
  have hreach := reach_of_belongs h
  omega

theorem Numeral.not_mem_marks {radix : Radix} {text digits : List Char}
    (h : Numeral radix text digits) : ∀ c ∈ text, c ∉ OneLine.marks := by
  obtain ⟨⟨mark, hmark, body, rfl, rfl⟩, hplain⟩ := h
  refine List.forall_mem_append.mpr ⟨?_, fun c hc => ?_⟩
  · have hall : ∀ mark ∈ radix.marks, mark.all (fun c => c ∉ OneLine.marks) = true := by
      cases radix with
      | _ => decide
    exact List.all_iff_forall_prop.mp (hall mark hmark)
  · cases hseparator : radix.isSeparator c with
    | true =>
      cases radix with
      | binary =>
        have hmarks : OneLine.marks.any (· == '_') = false := by decide
        exact Asm65816.not_mem_marks hmarks hseparator
      | hexadecimal =>
        have hmarks : OneLine.marks.any (· == ':') = false := by decide
        exact Asm65816.not_mem_marks hmarks hseparator
      | octal | decimal => cases hseparator
    | false =>
      have hdigit := hplain c (List.mem_filter.mpr ⟨hc, by rw [hseparator]; rfl⟩)
      cases radix with
      | _ => exact Asm65816.not_mem_marks (by decide) hdigit

/-- Only quoted texts and comments hide marks; a slash can stand alone. -/
theorem TokenClass.plain_of_belongs (h : word ∈ kind.pattern) (hcomment : kind ≠ .comment)
    (htext : kind ≠ .text) (hpetscii : kind ≠ .petsciiText) :
    word = ['/'] ∨ ∀ c ∈ word, c ∉ OneLine.marks := by
  obtain ⟨hreach, hpos⟩ := reach_of_belongs h
  have hname (hword : NameText (word.take (kind.reach word))) : ∀ c ∈ word, c ∉ OneLine.marks := by
    rw [hreach, List.take_length] at hword
    exact hword.not_mem_marks
  have hnumber (radix : Radix) (hkind : kind = radix.tokenClass) :
      ∀ c ∈ word, c ∉ OneLine.marks := by
    obtain ⟨digits, hnumeral, -⟩ := radix.exists_numeral (hkind ▸ h)
    exact hnumeral.not_mem_marks
  have hsome : 0 < kind.reach word := hreach ▸ hpos
  cases kind with
  | blank => exact .inr fun c hc => not_mem_marks (by decide) ((mem_someOf.mp h).2 c hc)
  | comment => exact absurd rfl hcomment
  | text => exact absurd rfl htext
  | petsciiText => exact absurd rfl hpetscii
  | punct =>
    obtain ⟨sign, hsign⟩ := h
    have hall : ∀ spelling ∈ Punct.spellings,
        spelling.1 = ['/'] ∨ spelling.1.all (fun c => c ∉ OneLine.marks) = true := by
      decide
    exact (hall _ hsign).imp_right List.all_iff_forall_prop.mp
  | hexadecimal => exact .inr (hnumber .hexadecimal rfl)
  | octal => exact .inr (hnumber .octal rfl)
  | binary => exact .inr (hnumber .binary rfl)
  | decimal => exact .inr (hnumber .decimal rfl)
  | name => exact .inr (hname (nameText_of_name hsome))
  | localName => exact .inr (hname (nameText_of_localName hsome))
  | argument => exact .inr (hname (nameText_of_argument hsome))

end Starts

/-! ## One piece and the parts in front of a text -/

section Quotes

variable {body content behind mid : List Char} {closed : Bool}

/-- A quote within a content stands behind a backslash. -/
theorem endsInBackslash_of_quote {stops : Char → Bool} {afterBackslash : Bool}
    {front back : List Char}
    (h : escapesQuotes stops afterBackslash (front ++ '"' :: back) = true) :
    endsInBackslash afterBackslash front = true := by
  induction front generalizing afterBackslash with
  | nil => exact (escapesQuotes_cons.mp h).2.1 rfl
  | cons c others ih => exact ih (escapesQuotes_cons.mp h).2.2

theorem endsInBackslash_of_append {front back : List Char}
    {stops : Char → Bool} (h : escapesQuotes stops false (front ++ '"' :: back) = true) :
    front.getLast? = some '\\' := by
  have hends := endsInBackslash_of_quote h
  by_contra hlast
  rw [endsInBackslash_false.mpr hlast] at hends
  cases hends

/-- The text that a quoted part is a start of. -/
theorem quoted_ends (hpart : PartBefore mid (.quoted content closed))
    (hmid : closed = false → mid = []) (hbody : escapesQuotes endsLine false body = true)
    (htext : body ++ '"' :: behind = content ++ (if closed then ['"'] else []) ++ mid) :
    behind = mid ∨ body.getLast? = some '\\' ∧ ∃ more, behind = more ++ mid := by
  cases hpart with
  | quoted within closes =>
    rw [if_pos rfl, List.append_assoc] at htext
    rcases List.append_eq_append_iff.mp htext with ⟨inner, rfl, hbehind⟩ | ⟨inner, rfl, hmid⟩
    · cases inner with
      | nil => exact .inl (List.cons.inj hbehind).2
      | cons c others =>
        obtain ⟨rfl, rfl⟩ := List.cons.inj hbehind
        exact .inr ⟨endsInBackslash_of_append within, others ++ ['"'],
          (List.append_assoc others ['"'] mid).symm⟩
    · cases inner with
      | nil => exact .inl (List.cons.inj hmid).2.symm
      | cons c others =>
        obtain ⟨rfl, -⟩ := List.cons.inj hmid
        exact absurd (endsInBackslash_of_append hbody) closes
  | openQuote within ends =>
    obtain rfl := hmid rfl
    rw [if_neg Bool.false_ne_true, List.append_nil, List.append_nil] at htext
    subst htext
    exact .inr ⟨endsInBackslash_of_append within, behind, (List.append_nil _).symm⟩

/-- A content without a carriage return can stand between quotes. -/
theorem text_of_content (h : escapesQuotes (· == '\n') false content = true)
    (hplain : ∀ c ∈ content, endsLine c = false) :
    '"' :: content ++ ['"'] ∈ TokenClass.text.pattern := by
  have hescapes {afterBackslash : Bool}
      (h : escapesQuotes (· == '\n') afterBackslash content = true) :
      escapesQuotes endsLine afterBackslash content = true := by
    clear * - h hplain
    induction content generalizing afterBackslash with
    | nil => rfl
    | cons c others ih =>
      obtain ⟨-, hquote, hothers⟩ := escapesQuotes_cons.mp h
      obtain ⟨hc, hplain⟩ := List.forall_mem_cons.mp hplain
      exact escapesQuotes_cons.mpr ⟨hc, hquote, ih hplain hothers⟩
  exact mem_marked.mpr ⟨content ++ ['"'],
    Language.append_mem_mul (mem_star_quotedItem.mpr (hescapes h)) rfl, rfl⟩

/-- The open quote that a quoted part is a start of. -/
theorem openQuote_ends (hpart : PartBefore mid (.quoted content closed))
    (hmid : closed = false → mid = []) (hstray : Unmatched ('"' :: body ++ behind))
    (hbody : ∀ c ∈ body, endsLine c = false) (hends : ∀ c ∈ behind.head?, endsLine c = true)
    (htext : body ++ behind = content ++ (if closed then ['"'] else []) ++ mid) :
    behind = [] ∧ mid = [] ∨ behind.head? = some '\r' ∧ ∃ more, behind = more ++ mid := by
  have hreturn {c : Char} (hc : c ∈ behind.head?) (hcontent : c ∈ content)
      (within : escapesQuotes (· == '\n') false content = true) : c = '\r' := by
    have hnewline := newline_notMem_of_escapesQuotes within
    have hline := Bool.or_eq_true_iff.mp (hends c hc)
    exact beq_iff_eq.mp (hline.resolve_right fun heq => hnewline (beq_iff_eq.mp heq ▸ hcontent))
  cases hpart with
  | quoted within closes =>
    rw [if_pos rfl, List.append_assoc] at htext
    rcases List.append_eq_append_iff.mp htext with ⟨inner, rfl, rfl⟩ | ⟨inner, rfl, hmid⟩
    · cases inner with
      | nil => cases hends '"' rfl
      | cons c others =>
        obtain rfl := hreturn rfl (List.mem_append_right body List.mem_cons_self) within
        exact .inr ⟨rfl, '\r' :: others ++ ['"'], (List.append_assoc _ ['"'] mid).symm⟩
    · -- The quote that closes the part would make a text.
      have hplain : ∀ c ∈ content, endsLine c = false := (List.forall_mem_append.mp hbody).1
      refine absurd (text_of_content within hplain) (hstray .text _ mid ?_)
      rw [List.cons_append, htext]
      simp
  | openQuote within ends =>
    obtain rfl := hmid rfl
    rw [if_neg Bool.false_ne_true, List.append_nil, List.append_nil] at htext
    cases behind with
    | nil => exact .inl ⟨rfl, rfl⟩
    | cons c others =>
      obtain rfl := hreturn rfl (htext ▸ List.mem_append_right body List.mem_cons_self) within
      exact .inr ⟨rfl, _, (List.append_nil _).symm⟩

end Quotes

/-- Where a line ends, or a block comment opens. -/
def Opens (rest : List Char) : Prop := rest = [] ∨ ∃ more, rest = '/' :: '*' :: more

/-- A piece in front of a text takes whole parts, or hides all that is left of its line, or is one
behind which comments are looked for in another way. -/
inductive PieceStep (rest : List Char) (parts : List TextPart) (piece : Piece)
    (behind : List Char) : Prop where
  | through {later : List TextPart} (sub : later ⊆ parts) (left : PartsTo rest behind later)
      (hides : piece.IsText ∨ ∀ front back, piece.chars ++ behind = front ++ '/' :: '*' :: back →
        piece.chars.length ≤ front.length)
  | last (hides : piece.Hides) (ends : behind = []) (alone : rest = [])
  | diverges (diverges : piece.Diverges behind) (left : ∃ more, behind = more ++ rest)

section Steps

variable {rest behind mid text : List Char} {part : TextPart} {parts : List TextPart}
  {piece : Piece}

theorem PartBefore.eq_code {c : Char} {tail : List Char} (h : PartBefore mid part)
    (hchars : part.chars = c :: tail) (hc : c ∉ OneLine.marks) : part = .code c ∧ tail = [] := by
  cases h with
  | code =>
    obtain ⟨rfl, rfl⟩ := List.cons.inj hchars
    exact ⟨rfl, rfl⟩
  | quoted | openQuote | blockComment | openBlock =>
    obtain ⟨rfl, -⟩ := List.cons.inj hchars
    exact absurd (by decide) hc
  | lineComment marked =>
    rcases marked with rfl | rfl
    · obtain ⟨rfl, -⟩ := List.cons.inj hchars
      exact absurd (by decide) hc
    · obtain ⟨rfl, -⟩ := List.cons.inj hchars
      exact absurd (by decide) hc

/-- Characters that are no marks are parts by themselves. -/
theorem PartsTo.splitCodes {word : List Char} (h : PartsTo rest text parts) (hrest : Opens rest)
    (htext : text = word ++ behind) (hword : ∀ c ∈ word, c ∉ OneLine.marks) :
    ∃ later, later ⊆ parts ∧ PartsTo rest behind later := by
  induction word generalizing text parts with
  | nil =>
    obtain rfl : text = behind := htext
    exact ⟨parts, List.Subset.refl _, h⟩
  | cons c others ih =>
    obtain ⟨hc, hothers⟩ := List.forall_mem_cons.mp hword
    cases h with
    | done =>
      rcases hrest with rfl | ⟨more, rfl⟩
      · cases htext
      · obtain ⟨rfl, -⟩ := List.cons.inj htext
        exact absurd (by decide) hc
    | @part mid part parts first later =>
      obtain ⟨d, tail, hchars⟩ := List.exists_cons_of_length_pos first.length_pos
      rw [hchars] at htext
      obtain ⟨rfl, hmid⟩ := List.cons.inj htext
      obtain ⟨rfl, rfl⟩ := first.eq_code hchars hc
      obtain ⟨found, hsub, hfound⟩ := ih later hmid hothers
      exact ⟨found, List.subset_cons_of_subset _ hsub, hfound⟩

theorem eq_nil_of_ends (hmid : '\n' ∉ mid) (hends : nextChar mid = '\n') : mid = [] := by
  cases mid with
  | nil => rfl
  | cons c others =>
    obtain rfl : c = '\n' := hends
    exact absurd List.mem_cons_self hmid

/-- A piece that a class of quoted texts takes. -/
theorem step_text {mark body content : List Char} {closed : Bool} {parts later : List TextPart}
    (hpiece : piece.IsText) (hchars : piece.chars = mark ++ (body ++ ['"']))
    (hsub : later ⊆ parts) (hpart : PartBefore mid (.quoted content closed))
    (hmid : closed = false → mid = [])
    (hleft : PartsTo rest mid later) (hbody : escapesQuotes endsLine false body = true)
    (htext : body ++ '"' :: behind = content ++ (if closed then ['"'] else []) ++ mid) :
    PieceStep rest parts piece behind := by
  rcases quoted_ends hpart hmid hbody htext with rfl | ⟨hlast, more, rfl⟩
  · exact .through hsub hleft (.inl hpiece)
  · obtain ⟨front, rfl⟩ := List.getLast?_eq_some_iff.mp hlast
    refine .diverges (.inl ⟨hpiece, mark ++ front, by simp [hchars]⟩) ?_
    obtain ⟨early, hmid⟩ : ∃ early, mid = early ++ rest := ⟨_, hleft.text_eq⟩
    exact ⟨more ++ early, by rw [hmid, List.append_assoc]⟩

/-- A piece at a quote. -/
theorem step_quoted {content : List Char} {closed : Bool} (hcut : Cut behind piece)
    (hpart : PartBefore mid (.quoted content closed)) (hleft : PartsTo rest mid parts)
    (hmid : closed = false → mid = [])
    (htext : piece.chars ++ behind = (TextPart.quoted content closed).chars ++ mid) :
    PieceStep rest (.quoted content closed :: parts) piece behind := by
  obtain ⟨early, hearly⟩ : ∃ early, mid = early ++ rest := ⟨_, hleft.text_eq⟩
  cases hcut with
  | unmatched plain => exact absurd (List.cons.inj htext).1 plain
  | @openQuote body stray within ends =>
    have hbody : body ++ behind = content ++ (if closed then ['"'] else []) ++ mid :=
      (List.cons.inj htext).2
    rcases openQuote_ends hpart hmid stray within ends hbody with ⟨rfl, rfl⟩ |
      ⟨hreturn, more, rfl⟩
    · exact .last (.inr (.inr ⟨rfl, rfl⟩)) rfl (List.append_eq_nil_iff.mp hearly.symm).2
    · exact .diverges (.inr ⟨.inr ⟨rfl, rfl⟩, hreturn⟩)
        ⟨more ++ early, by rw [hearly, List.append_assoc]⟩
  | @matched kind chars some belongs longest =>
    obtain ⟨c, tail, rfl⟩ := List.exists_cons_of_ne_nil some
    obtain rfl : c = '"' := (List.cons.inj htext).1
    obtain rfl := TokenClass.eq_text_of_quote belongs
    obtain ⟨inner, hinner, hcons⟩ := mem_marked.mp belongs
    obtain ⟨body, hbody, _, rfl, rfl⟩ := Language.mem_mul.mp hinner
    obtain rfl : tail = body ++ ['"'] := (List.cons.inj hcons).2
    have hrest : body ++ ['"'] ++ behind = content ++ (if closed then ['"'] else []) ++ mid :=
      (List.cons.inj htext).2
    rw [List.append_assoc] at hrest
    exact step_text ⟨_, _, rfl⟩ hcons (List.subset_cons_self _ _) hpart hmid hleft
      (mem_star_quotedItem.mp hbody) hrest

/-- What is at least as long as the mark of a comment is a comment. -/
theorem comment_of_mark {kind : TokenClass} {mark body tail : List Char} {c : Char}
    (hmark : mark = [';'] ∨ mark = ['/', '/']) (htext : c :: tail ++ behind = mark ++ body)
    (hle : mark.length ≤ (c :: tail).length) (h : c :: tail ∈ kind.pattern) : kind = .comment := by
  have hstarts := TokenClass.startsWith_of_belongs h
  have hall : ∀ kind ∈ TokenClass.all, (kind.startsWith ';' = true → kind = .comment) ∧
      (kind.startsWith '/' = true → kind = .comment ∨ kind = .punct) := by
    decide
  obtain ⟨hsemicolon, hslash⟩ := hall kind kind.mem_all
  rcases hmark with rfl | rfl
  · obtain rfl : c = ';' := (List.cons.inj htext).1
    exact hsemicolon hstarts
  · obtain rfl : c = '/' := (List.cons.inj htext).1
    refine (hslash hstarts).resolve_right ?_
    rintro rfl
    obtain ⟨sign, hsign⟩ := h
    have hshort : ∀ spelling ∈ Punct.spellings, spelling.1.head? = some '/' →
        spelling.1.length < 2 := by
      decide
    exact absurd hle (Nat.not_le_of_gt (hshort _ hsign rfl))

/-- A piece at a line comment. -/
theorem step_lineComment {mark body : List Char} (hcut : Cut behind piece)
    (hmark : mark = [';'] ∨ mark = ['/', '/']) (hline : '\n' ∉ piece.chars ++ behind)
    (htext : piece.chars ++ behind = mark ++ body) :
    piece.IsComment ∧ (behind = [] ∨ behind.head? = some '\r') := by
  have hbelongs : mark ∈ TokenClass.comment.pattern := by
    refine Language.mem_mul.mpr ⟨mark, ?_, [], Language.nil_mem_kstar _, List.append_nil _⟩
    exact hmark.imp id id
  cases hcut with
  | @unmatched c plain stray => exact absurd hbelongs (stray .comment mark body htext)
  | @openQuote content stray within ends => exact absurd hbelongs (stray .comment mark body htext)
  | @matched kind chars some belongs longest =>
    have hle := longest .comment mark body htext hbelongs
    obtain ⟨c, tail, rfl⟩ := List.exists_cons_of_ne_nil some
    obtain rfl := comment_of_mark hmark htext hle belongs
    obtain ⟨-, -, -, -, -, hends⟩ := comment_of_belongs belongs longest
    refine ⟨⟨rfl, belongs⟩, ?_⟩
    cases behind with
    | nil => exact .inl rfl
    | cons c others =>
      have hc : c ≠ '\n' := fun heq => hline (heq ▸ List.mem_append_right _ List.mem_cons_self)
      have hreturn := (Bool.or_eq_true_iff.mp (hends c rfl)).resolve_right
        fun heq => hc (beq_iff_eq.mp heq)
      rw [beq_iff_eq.mp hreturn]
      exact .inr rfl

/-- A part that starts with a quote is a quoted text. -/
theorem PartBefore.eq_quoted {tail : List Char} (h : PartBefore mid part)
    (hchars : part.chars = '"' :: tail) (hline : '\n' ∉ mid) :
    ∃ content closed, part = .quoted content closed ∧ (closed = false → mid = []) := by
  cases h with
  | code quote => exact absurd (List.cons.inj hchars).1 quote
  | quoted => exact ⟨_, true, rfl, nofun⟩
  | openQuote within ends => exact ⟨_, false, rfl, fun _ => eq_nil_of_ends hline ends⟩
  | lineComment marked =>
    rcases marked with rfl | rfl
    · cases (List.cons.inj hchars).1
    · cases (List.cons.inj hchars).1
  | blockComment | openBlock => cases (List.cons.inj hchars).1

/-- No comment is opened within characters that are no marks. -/
theorem not_opened {word : List Char} (hword : ∀ c ∈ word, c ∉ OneLine.marks)
    (front back : List Char) (h : word ++ behind = front ++ '/' :: '*' :: back) :
    word.length ≤ front.length := by
  rcases List.append_eq_append_iff.mp h with ⟨inner, rfl, -⟩ | ⟨inner, rfl, hinner⟩
  · rw [List.length_append]
    exact Nat.le_add_right _ _
  · cases inner with
    | nil => rw [List.append_nil]
    | cons c others =>
      obtain ⟨rfl, -⟩ := List.cons.inj hinner
      exact absurd (by decide) (hword '/' (List.mem_append_right front List.mem_cons_self))

/-- A quoted text with a letter in front of it. -/
theorem step_petscii {text : List Char} (h : 'p' :: text ∈ TokenClass.petsciiText.pattern)
    (hrest : Opens rest) (hleft : PartsTo rest mid parts) (hline : '\n' ∉ mid)
    (htext : text ++ behind = mid) :
    PieceStep rest (.code 'p' :: parts)
      ⟨'p' :: text, TokenClass.petsciiText.read ('p' :: text)⟩ behind := by
  obtain ⟨inner, hinner, hcons⟩ := mem_marked.mp h
  obtain ⟨body, hbody, _, rfl, rfl⟩ := Language.mem_mul.mp hinner
  obtain rfl : text = '"' :: (body ++ ['"']) := (List.cons.inj hcons).2
  cases hleft with
  | done =>
    rcases hrest with rfl | ⟨more, rfl⟩
    · cases htext
    · cases (List.cons.inj htext).1
  | @part after part others first later =>
    obtain ⟨d, tail, hchars⟩ := List.exists_cons_of_length_pos first.length_pos
    obtain rfl : '"' = d := by
      rw [hchars] at htext
      exact (List.cons.inj htext).1
    obtain ⟨content, closed, rfl, hafter⟩ :=
      first.eq_quoted hchars fun hmem => hline (List.mem_append_right _ hmem)
    have hbehind : body ++ ['"'] ++ behind =
        content ++ (if closed then ['"'] else []) ++ after := (List.cons.inj htext).2
    rw [List.append_assoc] at hbehind
    refine step_text ⟨_, _, rfl⟩ hcons ?_ first hafter later (mem_star_quotedItem.mp hbody) hbehind
    exact List.subset_cons_of_subset _ (List.subset_cons_self _ _)

/-- A piece at a character of the code. -/
theorem step_code {c : Char} (hcut : Cut behind piece) (hrest : Opens rest)
    (hpart : PartBefore mid (.code c)) (hleft : PartsTo rest mid parts) (hline : '\n' ∉ mid)
    (htext : piece.chars ++ behind = c :: mid) : PieceStep rest (.code c :: parts) piece
      behind := by
  cases hpart with
  | code quote mark slash =>
    -- A slash in front of a star would open a comment.
    have halone : ∀ front back, c :: mid = front ++ '/' :: '*' :: back → 1 ≤ front.length := by
      intro front back hfront
      cases front with
      | nil =>
        obtain ⟨rfl, rfl⟩ := List.cons.inj hfront
        exact absurd rfl (slash rfl).2
      | cons => exact Nat.succ_pos _
    cases hcut with
    | @unmatched d plain stray =>
      obtain ⟨rfl, rfl⟩ := List.cons.inj htext
      exact .through (List.subset_cons_self _ _) hleft (.inr halone)
    | openQuote => exact absurd (List.cons.inj htext).1.symm quote
    | @matched kind chars some belongs longest =>
      obtain ⟨d, tail, rfl⟩ := List.exists_cons_of_ne_nil some
      obtain rfl : d = c := (List.cons.inj htext).1
      have hmid : tail ++ behind = mid := (List.cons.inj htext).2
      have hstarts := TokenClass.startsWith_of_belongs belongs
      by_cases hpetscii : kind = .petsciiText
      · subst hpetscii
        obtain rfl : d = 'p' := beq_iff_eq.mp hstarts
        exact step_petscii belongs hrest hleft hline hmid
      have hcomment : kind ≠ .comment := by
        rintro rfl
        obtain ⟨comment, hmark, body, hchars, -⟩ := comment_of_belongs belongs longest
        rcases List.mem_pair.mp hmark with rfl | rfl
        · exact mark (List.cons.inj hchars).1
        · obtain ⟨rfl, rfl⟩ := List.cons.inj hchars
          exact (slash rfl).1 (congrArg nextChar hmid.symm)
      have hquoted : kind ≠ .text := by
        rintro rfl
        exact quote (beq_iff_eq.mp hstarts)
      rcases TokenClass.plain_of_belongs belongs hcomment hquoted hpetscii with halone' | hplain
      · obtain ⟨rfl, rfl⟩ := List.cons.inj halone'
        obtain rfl : behind = mid := hmid
        exact .through (List.subset_cons_self _ _) hleft (.inr halone)
      · obtain ⟨later, hsub, hlater⟩ :=
          hleft.splitCodes hrest hmid.symm (List.forall_mem_cons.mp hplain).2
        exact .through (List.subset_cons_of_subset _ hsub) hlater (.inr (not_opened hplain))

/-- How a piece stands to the parts of a line that blank nothing. -/
theorem PartsTo.step (h : PartsTo rest text parts) (hparts : Blankless parts) (hsome : parts ≠ [])
    (hline : '\n' ∉ text) (hrest : Opens rest) (hcut : Cut behind piece)
    (htext : piece.chars ++ behind = text) : PieceStep rest parts piece behind := by
  cases h with
  | done => exact absurd rfl hsome
  | @part mid part parts first later =>
    have hmid : '\n' ∉ mid := fun hmem => hline (List.mem_append_right _ hmem)
    cases part with
    | code c => exact step_code hcut hrest first later hmid htext
    | quoted content closed =>
      refine step_quoted hcut first later ?_ htext
      cases first with
      | quoted => exact nofun
      | openQuote within ends => exact fun _ => eq_nil_of_ends hmid ends
    | lineComment mark body =>
      cases first with
      | lineComment marked within ends =>
        obtain rfl := eq_nil_of_ends hmid ends
        have hnil : rest = [] := (List.append_eq_nil_iff.mp later.text_eq.symm).2
        rw [List.append_nil] at htext hline
        obtain ⟨hcomment, hbehind | hreturn⟩ :=
          step_lineComment hcut marked (htext ▸ hline) htext
        · exact .last (.inr (.inl hcomment)) hbehind hnil
        · exact .diverges (.inr ⟨.inl hcomment, hreturn⟩) ⟨behind, by rw [hnil, List.append_nil]⟩
    | blockComment content closed => cases hparts _ List.mem_cons_self

end Steps

/-! ## The pieces of a line and its parts -/

/-- Some piece of a line that ends within its first characters is one behind which comments are
looked for in another way. -/
def DivergesWithin (pieces : List Piece) (count : Nat) : Prop :=
  ∃ before piece after, pieces = before ++ piece :: after ∧
    piece.Diverges (after.flatMap Piece.chars) ∧
      ((before ++ [piece]).flatMap Piece.chars).length ≤ count

/-- The first characters of a line are whole pieces. -/
def EndsAt (pieces : List Piece) (count : Nat) : Prop :=
  ∃ before after, pieces = before ++ after ∧ (before.flatMap Piece.chars).length = count

/-- The two characters behind the first ones belong to a piece that hides comments. -/
def HiddenAt (pieces : List Piece) (count : Nat) : Prop :=
  ∃ before piece after, pieces = before ++ piece :: after ∧ piece.Hides ∧
    (before.flatMap Piece.chars).length ≤ count ∧
      count + 2 ≤ ((before ++ [piece]).flatMap Piece.chars).length

section Runs

variable {rest behind text front back : List Char} {parts : List TextPart} {piece : Piece}
  {pieces : List Piece} {count : Nat}

theorem DivergesWithin.cons (h : DivergesWithin pieces count) :
    DivergesWithin (piece :: pieces) (piece.chars.length + count) := by
  obtain ⟨before, found, after, rfl, hfound, hle⟩ := h
  refine ⟨piece :: before, found, after, rfl, hfound, ?_⟩
  rw [List.cons_append, List.flatMap_cons, List.length_append]
  exact Nat.add_le_add_left hle _

theorem EndsAt.cons (h : EndsAt pieces count) :
    EndsAt (piece :: pieces) (piece.chars.length + count) := by
  obtain ⟨before, after, rfl, rfl⟩ := h
  exact ⟨piece :: before, after, rfl, by rw [List.flatMap_cons, List.length_append]⟩

theorem HiddenAt.cons (h : HiddenAt pieces count) :
    HiddenAt (piece :: pieces) (piece.chars.length + count) := by
  obtain ⟨before, found, after, rfl, hfound, hlow, hhigh⟩ := h
  refine ⟨piece :: before, found, after, rfl, hfound, ?_, ?_⟩
  · rw [List.flatMap_cons, List.length_append]
    exact Nat.add_le_add_left hlow _
  · rw [List.cons_append, List.flatMap_cons, List.length_append]
    omega

/-- The first piece hides what it reaches over. -/
theorem HiddenAt.first (h : piece.Hides) (hle : count + 2 ≤ piece.chars.length) :
    HiddenAt (piece :: pieces) count := by
  refine ⟨[], piece, pieces, rfl, h, Nat.zero_le _, ?_⟩
  rwa [List.nil_append, List.flatMap_singleton]

theorem DivergesWithin.first (hcut : CutInto behind pieces) (h : piece.Diverges behind)
    (hle : piece.chars.length ≤ count) : DivergesWithin (piece :: pieces) count := by
  refine ⟨[], piece, pieces, rfl, hcut.flatten ▸ h, ?_⟩
  rwa [List.nil_append, List.flatMap_singleton]

/-- A piece that hides comments ends with a quote, or where its line does. -/
theorem Cut.ends_of_hides (hcut : Cut behind piece) (h : piece.Hides) :
    piece.chars.getLast? = some '"' ∨ ∀ c ∈ behind.head?, endsLine c = true := by
  rcases h with ⟨content, petscii, hread⟩ | ⟨hread, hcomment⟩ | ⟨hread, hquote⟩
  · cases hcut with
    | unmatched | openQuote => cases hread
    | @matched kind chars hsome belongs longest =>
      refine .inl ?_
      have hends {mark : List Char} (h : chars ∈ {mark} * (quotedItem∗ * {['"']})) :
          chars.getLast? = some '"' := by
        obtain ⟨inner, hinner, rfl⟩ := mem_marked.mp h
        obtain ⟨body, -, _, rfl, rfl⟩ := Language.mem_mul.mp hinner
        rw [← List.append_assoc, List.getLast?_concat]
      rcases TokenClass.read_cases hread with ⟨_, h⟩ | ⟨_, h⟩ | ⟨rfl, -⟩ | ⟨rfl, -⟩ | ⟨-, h⟩
      · cases h
      · cases h
      · exact hends belongs
      · exact hends belongs
      · cases h
  · cases hcut with
    | unmatched | openQuote => cases hread
    | matched hsome belongs longest =>
      obtain ⟨-, -, -, -, -, hends⟩ := comment_of_belongs hcomment longest
      exact .inr hends
  · cases hcut with
    | unmatched plain => exact absurd (Option.some.inj hquote) plain
    | openQuote stray within ends => exact .inr ends
    | @matched kind chars hsome belongs longest =>
      obtain ⟨tail, rfl⟩ := List.head?_eq_some_iff.mp hquote
      obtain rfl := TokenClass.eq_text_of_quote belongs
      cases hread

/-- A comment that a piece hides is opened within the piece. -/
theorem Cut.opener_within (hcut : Cut behind piece) (h : piece.Hides)
    (htext : piece.chars ++ behind = front ++ '/' :: '*' :: back)
    (hfront : front.length < piece.chars.length) : front.length + 2 ≤ piece.chars.length := by
  rcases List.append_eq_append_iff.mp htext with ⟨inner, rfl, -⟩ | ⟨inner, hchars, hinner⟩
  · rw [List.length_append] at hfront
    omega
  · rw [hchars, List.length_append] at hfront ⊢
    cases inner with
    | nil => exact absurd hfront (Nat.lt_irrefl _)
    | cons c others =>
      cases others with
      | cons d others => exact Nat.add_le_add_left (Nat.le_add_left 2 others.length) _
      | nil =>
        -- The star would stand behind the piece, which ends with a quote or where its line does.
        obtain ⟨rfl, hstar⟩ := List.cons.inj hinner
        rcases hcut.ends_of_hides h with hlast | hends
        · rw [hchars, List.getLast?_concat] at hlast
          cases hlast
        · cases hends '*' (congrArg List.head? hstar.symm)

/-- What opens a comment in a line that blanks nothing is hidden by a piece. -/
theorem CutInto.hiddenAt (hcut : CutInto text pieces) (h : Parts text parts)
    (hparts : Blankless parts) (hline : '\n' ∉ text)
    (htext : text = front ++ '/' :: '*' :: back) :
    HiddenAt pieces front.length ∨ DivergesWithin pieces front.length := by
  induction hcut generalizing front parts with
  | done =>
    have hlength := congrArg List.length htext
    simp at hlength
  | @piece behind piece pieces first later ih =>
    have hsome : parts ≠ [] := by
      rintro rfl
      have hnil := h.text_eq
      rw [List.flatMap_nil, List.nil_append] at hnil
      exact first.ne_nil (List.append_eq_nil_iff.mp hnil).1
    have hbehind : '\n' ∉ behind := fun hmem => hline (List.mem_append_right _ hmem)
    have hopens : Opens [] := .inl rfl
    have hstep := h.step hparts hsome hline hopens first rfl
    by_cases hwithin : front.length < piece.chars.length
    · have hhidden (hhides : piece.Hides) : HiddenAt (piece :: pieces) front.length :=
        .first hhides (first.opener_within hhides htext hwithin)
      cases hstep with
      | through sub left hides =>
        rcases hides with hquoted | hplain
        · exact .inl (hhidden (.inl hquoted))
        · exact absurd hwithin (Nat.not_lt_of_le (hplain front back htext))
      | last hides => exact .inl (hhidden hides)
      | diverges diverges => exact .inl (hhidden diverges.hides)
    · have hle := Nat.le_of_not_lt hwithin
      obtain ⟨front', rfl, hfront'⟩ : ∃ front', front = piece.chars ++ front' ∧
          behind = front' ++ '/' :: '*' :: back := by
        rcases List.append_eq_append_iff.mp htext with hfront | ⟨inner, hchars, hinner⟩
        · exact hfront
        · rw [hchars, List.length_append] at hle
          obtain rfl : inner = [] := List.eq_nil_of_length_eq_zero (by omega)
          exact ⟨[], by rw [hchars, List.append_nil, List.append_nil], hinner.symm⟩
      rw [List.length_append]
      cases hstep with
      | through sub left hides =>
        have hblankless : Blankless _ := fun part hpart => hparts part (sub hpart)
        exact (ih left hblankless hbehind hfront').imp HiddenAt.cons DivergesWithin.cons
      | last hides ends =>
        rw [ends] at hfront'
        cases (List.append_eq_nil_iff.mp hfront'.symm).2
      | diverges diverges => exact .inr (.first later diverges (Nat.le_add_right _ _))

/-- Where a block comment opens behind parts that blank nothing, a piece starts. -/
theorem CutInto.endsAt (hcut : CutInto text pieces) (h : PartsTo rest text parts)
    (hparts : Blankless parts) (hline : '\n' ∉ text) (hrest : ∃ more, rest = '/' :: '*' :: more)
    (htext : text = front ++ rest) :
    EndsAt pieces front.length ∨ DivergesWithin pieces front.length := by
  induction hcut generalizing front parts with
  | done =>
    obtain ⟨more, rfl⟩ := hrest
    cases (List.append_eq_nil_iff.mp htext.symm).2
  | @piece behind piece pieces first later ih =>
    by_cases hsome : parts = []
    · subst hsome
      have halone := h.text_eq
      rw [htext, List.flatMap_nil, List.append_cancel_right_eq] at halone
      exact .inl ⟨[], piece :: pieces, rfl, by rw [halone]; rfl⟩
    have hbehind : '\n' ∉ behind := fun hmem => hline (List.mem_append_right _ hmem)
    have hfront {more : List Char} (hmore : behind = more ++ rest) :
        front = piece.chars ++ more := by
      rw [hmore, ← List.append_assoc, List.append_cancel_right_eq] at htext
      exact htext.symm
    cases h.step hparts hsome hline (.inr hrest) first rfl with
    | through sub left hides =>
      rw [hfront left.text_eq, List.length_append]
      have hblankless : Blankless _ := fun part hpart => hparts part (sub hpart)
      exact (ih left hblankless hbehind left.text_eq).imp EndsAt.cons DivergesWithin.cons
    | last hides ends alone =>
      obtain ⟨more, rfl⟩ := hrest
      cases alone
    | diverges diverges left =>
      obtain ⟨more, hmore⟩ := left
      rw [hfront hmore, List.length_append]
      exact .inr (.first later diverges (Nat.le_add_right _ _))

end Runs

/-! ## The lines of a text and its parts -/

/-- What the parts of a text leave in front of the next part on its line. -/
def shownLine (before : List TextPart) : List Char :=
  (before.flatMap TextPart.shown).rtakeWhile (· != '\n')

/-- The line that parts start, as it is written. -/
def writtenLine (parts : List TextPart) : List Char :=
  (parts.flatMap TextPart.chars).takeWhile (· != '\n')

section Text

variable {rest text : List Char} {parts before after : List TextPart}

theorem PartsTo.ofAppend (h : PartsTo rest text (before ++ after)) :
    ∃ mid, PartsTo mid text before ∧ PartsTo rest mid after := by
  induction before generalizing text with
  | nil => exact ⟨text, .done, h⟩
  | cons part others ih =>
    cases h with
    | part first later =>
      obtain ⟨mid, hothers, hafter⟩ := ih later
      exact ⟨mid, .part first hothers, hafter⟩

/-- What is left on a line is made of parts that blank nothing. -/
theorem PartsTo.shownLine (h : PartsTo rest text parts) :
    ∃ later, Blankless later ∧ PartsTo rest (shownLine parts ++ rest) later := by
  have hshown := h.shown
  have hblankless : Blankless (parts.flatMap TextPart.shownParts) :=
    fun part => isBlock_of_mem_shownParts
  rw [← List.rdropWhile_append_rtakeWhile (p := (· != '\n'))
    (l := parts.flatMap TextPart.shown)] at hshown
  by_cases hlead : (parts.flatMap TextPart.shown).rdropWhile (· != '\n') = []
  · rw [hlead, List.nil_append] at hshown
    exact ⟨_, hblankless, hshown⟩
  · obtain ⟨lead, hlead'⟩ : ∃ lead, (parts.flatMap TextPart.shown).rdropWhile (· != '\n') =
        lead ++ ['\n'] := by
      have hlast := List.rdropWhile_last_not _ _ hlead
      rw [bne_iff_ne, not_ne_iff] at hlast
      have hsplit := (List.dropLast_append_getLast hlead).symm
      rw [hlast] at hsplit
      exact ⟨_, hsplit⟩
    rw [hlead', List.append_assoc, List.append_assoc, List.singleton_append] at hshown
    obtain ⟨early, late, -, hlate, -, hsub⟩ := hshown.atNewline hblankless rfl
    exact ⟨late, fun part hpart => hblankless part (hsub hpart), hlate⟩

theorem newline_notMem_shownLine (before : List TextPart) : '\n' ∉ Asm65816.shownLine before :=
  fun hmem => absurd (List.mem_rtakeWhile_imp hmem) (by decide)

theorem newline_notMem_writtenLine (parts : List TextPart) : '\n' ∉ writtenLine parts :=
  fun hmem => absurd (List.all_eq_true.mp List.all_takeWhile _ hmem) (by decide)

end Text

/-- Comments and quoted texts do not run into each other. Where what is left of a text opens a
comment, a piece of the line hides it; and each block comment, which is all that is blanked, opens
between two pieces of its line, as that is left in front of the comment and written from there on.
This holds on each line up to a piece behind which comments are looked for in another way. -/
theorem comments_between_pieces (text : String) :
    (∀ line ∈ codeLines text, ∀ front back, line = front ++ '/' :: '*' :: back →
      HiddenAt (cutLine line) front.length ∨ DivergesWithin (cutLine line) front.length) ∧
    (∃ parts, Parts text.toList parts) ∧ ∀ parts, Parts text.toList parts →
      (stripBlockComments text.toList).1 = parts.flatMap TextPart.shown ∧
      ∀ before content closed after, parts = before ++ .blockComment content closed :: after →
        EndsAt (cutLine (shownLine before ++ writtenLine (.blockComment content closed :: after)))
          (shownLine before).length ∨
        DivergesWithin
          (cutLine (shownLine before ++ writtenLine (.blockComment content closed :: after)))
          (shownLine before).length := by
  obtain ⟨found, hfound⟩ := exists_parts text.toList
  refine ⟨?_, ⟨found, hfound⟩, fun parts hparts => ⟨hparts.shown_eq, ?_⟩⟩
  · intro line hline front back htext
    have hshown := hfound.shown
    rw [List.append_nil] at hshown
    rw [codeLines, hfound.shown_eq] at hline
    obtain ⟨hnewline, lineParts, hlineParts, hblankless⟩ :=
      Parts.ofLine hshown (fun part => isBlock_of_mem_shownParts) hline
    exact (cutInto_cutLine line).hiddenAt hlineParts hblankless hnewline htext
  · rintro before content closed after rfl
    obtain ⟨mid, hbefore, hafter⟩ := hparts.ofAppend
    obtain ⟨later, hblankless, hlater⟩ := hbefore.shownLine
    have hmid := hafter.text_eq
    rw [List.append_nil] at hmid
    obtain ⟨more, hmore⟩ : ∃ more, writtenLine (.blockComment content closed :: after) =
        '/' :: '*' :: more := ⟨_, rfl⟩
    have hnext : nextChar (writtenLine (.blockComment content closed :: after)) = nextChar mid := by
      rw [hmore, hmid]
      rfl
    obtain ⟨front, hfront, hline⟩ := hlater.retail hblankless hnext
    obtain rfl := List.append_cancel_right hfront
    refine (cutInto_cutLine _).endsAt hline hblankless ?_ ⟨more, hmore⟩ rfl
    exact fun hmem => (List.mem_append.mp hmem).elim (newline_notMem_shownLine before)
      (newline_notMem_writtenLine _)

/-- The opener in the text is hidden there, and the next one opens a comment between two pieces,
though a quote stands behind it. -/
theorem comments_between_pieces_quoted :
    (HiddenAt (cutLine "a \"/*\"          ".toList) 3 ∨
      DivergesWithin (cutLine "a \"/*\"          ".toList) 3) ∧
    Parts "a \"/*\" /* \"b\" */".toList [.code 'a', .code ' ', .quoted ['/', '*'] true,
      .code ' ', .blockComment " \"b\" ".toList true] ∧
    (EndsAt (cutLine "a \"/*\" /* \"b\" */".toList) 7 ∨
      DivergesWithin (cutLine "a \"/*\" /* \"b\" */".toList) 7) := by
  have hblock : PartBefore [] (.blockComment " \"b\" ".toList true) := .blockComment (by decide)
  have hblank : PartBefore "/* \"b\" */".toList (.code ' ') :=
    .code (by decide) (by decide) (by decide)
  have hquoted : PartBefore " /* \"b\" */".toList (.quoted ['/', '*'] true) :=
    .quoted (by decide) (by decide)
  have hsecond : PartBefore "\"/*\" /* \"b\" */".toList (.code ' ') :=
    .code (by decide) (by decide) (by decide)
  have hfirst : PartBefore " \"/*\" /* \"b\" */".toList (.code 'a') :=
    .code (by decide) (by decide) (by decide)
  have hparts : Parts "a \"/*\" /* \"b\" */".toList ([.code 'a', .code ' ',
      .quoted ['/', '*'] true, .code ' '] ++ [.blockComment " \"b\" ".toList true]) :=
    .part hfirst (.part hsecond (.part hquoted (.part hblank (.part hblock .done))))
  obtain ⟨hlines, -, hopeners⟩ := comments_between_pieces "a \"/*\" /* \"b\" */"
  have hline : "a \"/*\"          ".toList ∈ codeLines "a \"/*\" /* \"b\" */" :=
    List.mem_singleton.mpr rfl
  exact ⟨hlines _ hline ['a', ' ', '"'] "\"          ".toList rfl, hparts,
    (hopeners _ hparts).2 _ _ _ _ rfl⟩

/-- A text within a block comment is blanked with it, though the line as it was written has the
text. -/
theorem text_within_comment_blanked :
    (stripBlockComments " .db 1, /* \"ab\" */".toList).2 = none ∧
    (∃ tokens, lexLine 0 0 " .db 1, /* \"ab\" */".toList = .ok tokens ∧
      ⟨.text "ab" false, ⟨0, 11, 15⟩, "\"ab\""⟩ ∈ tokens) ∧
    (utf8Bytes " .db 1, /* \"ab\" */")[12]? = some 97 ∧
    (utf8Bytes (blanked " .db 1, /* \"ab\" */"))[12]? = some 32 := by
  refine ⟨rfl, ⟨_, rfl, ?_⟩, ?_, ?_⟩
  · iterate 5 apply List.mem_cons_of_mem
    exact List.mem_cons_self
  · rw [utf8Bytes_eq]
    rfl
  · rw [utf8Bytes_eq, blanked_toList]
    rfl

/-- A text that ends with a quote behind a backslash hides no comment behind it, and yet the comment
is not blanked. -/
example : codeLines " .db \"a\\\" /* x */" = [" .db \"a\\\" /* x */".toList] ∧
    (lexLine 0 0 " .db \"a\\\" /* x */".toList).map (List.map Token.text) =
      .ok [".db", "\"a\\\"", "/", "*", "x", "*", "/"] := by
  exact ⟨rfl, rfl⟩

end Asm65816
