import Asm65816.Proofs.LinePieces
import Asm65816.Proofs.Length

/-!
# The parts of a source text

Before lines are read, a source text is made of quoted texts, line comments, block comments and the
code between them. Block comments are blanked byte for byte, with their newlines kept, and every
other part stays as it is.
-/

namespace Asm65816

/-! ## Parts -/

/-- A part of a source text. -/
inductive TextPart where
  /-- A character that is neither quoted nor in a comment. -/
  | code (c : Char)
  /-- A quoted text; where nothing closes it, it ends with its line. -/
  | quoted (content : List Char) (closed : Bool)
  /-- A comment that ends with its line, with the mark that opens it. -/
  | lineComment (mark body : List Char)
  /-- A comment of any number of lines; where nothing closes it, it ends with the text. -/
  | blockComment (content : List Char) (closed : Bool)

namespace TextPart

/-- A part as it is written. -/
def chars : TextPart → List Char
  | code c => [c]
  | quoted content closed => '"' :: content ++ if closed then ['"'] else []
  | lineComment mark body => mark ++ body
  | blockComment content closed => '/' :: '*' :: content ++ if closed then ['*', '/'] else []

def isBlock : TextPart → Bool
  | blockComment _ _ => true
  | _ => false

/-- What is left of a part: a block comment is blanked, any other part stays as it is. -/
def shown (part : TextPart) : List Char :=
  if part.isBlock then part.chars.flatMap blankedChar else part.chars

/-- The parts that what is left of a part is made of. -/
def shownParts (part : TextPart) : List TextPart :=
  if part.isBlock then (part.chars.flatMap blankedChar).map code else [part]

end TextPart

/-- The character that a text goes on with; its end counts as a newline. -/
def nextChar (rest : List Char) : Char := rest.headD '\n'

/-- How a part stands in front of a rest. Every quote within a quoted text stands behind a
backslash, and the one that closes it does not. -/
inductive PartBefore (rest : List Char) : TextPart → Prop where
  | code {c : Char} (quote : c ≠ '"') (mark : c ≠ ';')
      (slash : c = '/' → nextChar rest ≠ '/' ∧ nextChar rest ≠ '*') : PartBefore rest (.code c)
  | quoted {content : List Char} (within : escapesQuotes (· == '\n') false content = true)
      (closes : content.getLast? ≠ some '\\') : PartBefore rest (.quoted content true)
  | openQuote {content : List Char} (within : escapesQuotes (· == '\n') false content = true)
      (ends : nextChar rest = '\n') : PartBefore rest (.quoted content false)
  | lineComment {mark body : List Char} (marked : mark = [';'] ∨ mark = ['/', '/'])
      (within : '\n' ∉ body) (ends : nextChar rest = '\n') :
      PartBefore rest (.lineComment mark body)
  | blockComment {content : List Char} (within : ¬['*', '/'] <:+: content) :
      PartBefore rest (.blockComment content true)
  | openBlock {content : List Char} (within : ¬['*', '/'] <:+: content) (ends : rest = []) :
      PartBefore rest (.blockComment content false)

/-- A text is made of parts, up to a rest. -/
inductive PartsTo (rest : List Char) : List Char → List TextPart → Prop where
  | done : PartsTo rest rest []
  | part {text : List Char} {part : TextPart} {parts : List TextPart}
      (first : PartBefore text part) (later : PartsTo rest text parts) :
      PartsTo rest (part.chars ++ text) (part :: parts)

/-- A whole text is made of parts. -/
def Parts (text : List Char) (parts : List TextPart) : Prop := PartsTo [] text parts

theorem PartsTo.text_eq {rest text : List Char} {parts : List TextPart}
    (h : PartsTo rest text parts) : text = parts.flatMap TextPart.chars ++ rest := by
  induction h with
  | done => rfl
  | part first later ih => rw [List.flatMap_cons, List.append_assoc, ← ih]

theorem PartBefore.length_pos {rest : List Char} {part : TextPart} (h : PartBefore rest part) :
    0 < part.chars.length := by
  cases h with
  | lineComment marked =>
    rcases marked with rfl | rfl
    all_goals exact Nat.succ_pos _
  | _ => exact Nat.succ_pos _

/-- A rest alone has no parts in front of it. -/
theorem PartsTo.eq_nil {rest text : List Char} {parts : List TextPart} (h : PartsTo rest text parts)
    (htext : text = []) : parts = [] := by
  cases h with
  | done => rfl
  | part first later =>
    have hpos := first.length_pos
    rw [(List.append_eq_nil_iff.mp htext).1] at hpos
    cases hpos

/-! ## Every text is made of parts -/

section Exists

variable {afterBackslash : Bool} {text : List Char}

/-- Whether a text, which may stand behind a backslash, ends with one. -/
def endsInBackslash (afterBackslash : Bool) : List Char → Bool
  | [] => afterBackslash
  | c :: rest => endsInBackslash (c == '\\') rest

theorem endsInBackslash_eq (afterBackslash : Bool) (text : List Char) :
    endsInBackslash afterBackslash text = (text.getLast?.map (· == '\\')).getD afterBackslash := by
  induction text generalizing afterBackslash with
  | nil => rfl
  | cons c rest ih =>
    rw [endsInBackslash, ih, List.getLast?_cons, Option.map_some, Option.getD_some]
    cases rest.getLast? with
    | none => rfl
    | some last => rfl

/-- A quoted text goes on to the first quote that is not behind a backslash, or to the end of its
line. -/
theorem exists_quoted (afterBackslash : Bool) (text : List Char) :
    (∃ content rest, text = content ++ '"' :: rest ∧
      escapesQuotes (· == '\n') afterBackslash content = true ∧
        endsInBackslash afterBackslash content = false) ∨
    ∃ content rest, text = content ++ rest ∧
      escapesQuotes (· == '\n') afterBackslash content = true ∧ nextChar rest = '\n' := by
  induction text generalizing afterBackslash with
  | nil => exact .inr ⟨[], [], rfl, rfl, rfl⟩
  | cons c rest ih =>
    by_cases hnewline : c = '\n'
    · exact .inr ⟨[], c :: rest, rfl, rfl, hnewline⟩
    by_cases hcloses : c = '"' ∧ afterBackslash = false
    · obtain ⟨rfl, rfl⟩ := hcloses
      exact .inl ⟨[], rest, rfl, rfl, rfl⟩
    · have hcons {content : List Char}
          (h : escapesQuotes (· == '\n') (c == '\\') content = true) :
          escapesQuotes (· == '\n') afterBackslash (c :: content) = true := by
        refine escapesQuotes_cons.mpr ⟨beq_eq_false_iff_ne.mpr hnewline, fun hc => ?_, h⟩
        exact (Bool.not_eq_false _).mp fun hplain => hcloses ⟨hc, hplain⟩
      rcases ih (c == '\\') with ⟨content, behind, rfl, hwithin, hlast⟩ | ⟨content, behind, rfl,
        hwithin, hends⟩
      · exact .inl ⟨c :: content, behind, rfl, hcons hwithin, hlast⟩
      · exact .inr ⟨c :: content, behind, rfl, hcons hwithin, hends⟩

/-- A line comment goes on to the end of its line. -/
theorem exists_line (text : List Char) :
    ∃ body rest, text = body ++ rest ∧ '\n' ∉ body ∧ nextChar rest = '\n' := by
  induction text with
  | nil => exact ⟨[], [], rfl, List.not_mem_nil, rfl⟩
  | cons c rest ih =>
    by_cases hnewline : c = '\n'
    · exact ⟨[], c :: rest, rfl, List.not_mem_nil, hnewline⟩
    · obtain ⟨body, behind, rfl, hwithin, hends⟩ := ih
      exact ⟨c :: body, behind, rfl, List.not_mem_cons_of_ne_of_not_mem (Ne.symm hnewline) hwithin,
        hends⟩

/-- A block comment goes on to the first `*/`, or to the end of the text. -/
theorem exists_block (text : List Char) :
    (∃ content rest, text = content ++ '*' :: '/' :: rest ∧ ¬['*', '/'] <:+: content) ∨
      ¬['*', '/'] <:+: text := by
  induction text with
  | nil => exact .inr fun h => nomatch List.infix_nil.mp h
  | cons c rest ih =>
    by_cases hcloses : ['*', '/'] <+: c :: rest
    · obtain ⟨behind, hbehind⟩ := hcloses
      exact .inl ⟨[], behind, hbehind.symm, fun h => nomatch List.infix_nil.mp h⟩
    · rcases ih with ⟨content, behind, rfl, hwithin⟩ | hwithin
      · refine .inl ⟨c :: content, behind, rfl, fun h => ?_⟩
        rcases List.infix_cons_iff.mp h with hstarts | hlater
        · exact hcloses (hstarts.trans (List.prefix_append (c :: content) _))
        · exact hwithin hlater
      · refine .inr fun h => ?_
        exact (List.infix_cons_iff.mp h).elim hcloses hwithin

theorem endsInBackslash_false {text : List Char} :
    endsInBackslash false text = false ↔ text.getLast? ≠ some '\\' := by
  rw [endsInBackslash_eq]
  cases text.getLast? with
  | none => simp
  | some last => simp

/-- Some part stands at the front of a text. -/
theorem exists_part (c : Char) (text : List Char) :
    ∃ part rest, c :: text = part.chars ++ rest ∧ PartBefore rest part := by
  by_cases hquote : c = '"'
  · subst hquote
    rcases exists_quoted false text with ⟨content, rest, rfl, hwithin, hlast⟩ |
      ⟨content, rest, rfl, hwithin, hends⟩
    · refine ⟨.quoted content true, rest, ?_, .quoted hwithin (endsInBackslash_false.mp hlast)⟩
      simp [TextPart.chars]
    · refine ⟨.quoted content false, rest, ?_, .openQuote hwithin hends⟩
      simp [TextPart.chars]
  by_cases hmark : c = ';'
  · obtain ⟨body, rest, rfl, hwithin, hends⟩ := exists_line text
    exact ⟨.lineComment [';'] body, rest, congrArg (· :: _) hmark,
      .lineComment (.inl rfl) hwithin hends⟩
  by_cases hslash : c = '/' → nextChar text ≠ '/' ∧ nextChar text ≠ '*'
  · exact ⟨.code c, text, rfl, .code hquote hmark hslash⟩
  · obtain ⟨rfl, hnext⟩ := Classical.not_imp.mp hslash
    obtain ⟨d, others, rfl⟩ : ∃ d others, text = d :: others := by
      cases text with
      | nil => exact absurd ⟨by decide, by decide⟩ hnext
      | cons d others => exact ⟨d, others, rfl⟩
    rw [not_and_or, not_ne_iff, not_ne_iff] at hnext
    rcases hnext with rfl | rfl
    · obtain ⟨body, rest, rfl, hwithin, hends⟩ := exists_line others
      exact ⟨.lineComment ['/', '/'] body, rest, rfl, .lineComment (.inr rfl) hwithin hends⟩
    · rcases exists_block others with ⟨content, rest, rfl, hwithin⟩ | hwithin
      · refine ⟨.blockComment content true, rest, ?_, .blockComment hwithin⟩
        simp [TextPart.chars]
      · refine ⟨.blockComment others false, [], ?_, .openBlock hwithin rfl⟩
        simp [TextPart.chars]

/-- Every text is made of parts. -/
theorem exists_parts (text : List Char) : ∃ parts, Parts text parts := by
  induction hlength : text.length using Nat.strongRecOn generalizing text with
  | ind count ih =>
    cases text with
    | nil => exact ⟨[], .done⟩
    | cons c others =>
      obtain ⟨part, rest, htext, hfirst⟩ := exists_part c others
      have hpos := hfirst.length_pos
      rw [htext, List.length_append] at hlength
      obtain ⟨parts, hparts⟩ := ih rest.length (by omega) rest rfl
      exact ⟨part :: parts, htext ▸ .part hfirst hparts⟩

end Exists

/-! ## What is left of a text -/

/-- Characters are left as `shown`, and what is behind them is read in the next state. -/
def Strips (state : CommentState) (chars shown : List Char) (next : CommentState)
    (rest : List Char) : Prop :=
  ∀ offset, stripFrom state offset (chars ++ rest) =
    (shown ++ (stripFrom next (offset + byteLength chars) rest).1,
      (stripFrom next (offset + byteLength chars) rest).2)

namespace Strips

variable {state middle last : CommentState} {chars more shown shownMore rest : List Char}

theorem nil : Strips state [] [] state rest := fun _ => rfl

theorem append (h : Strips state chars shown middle (more ++ rest))
    (hmore : Strips middle more shownMore last rest) :
    Strips state (chars ++ more) (shown ++ shownMore) last rest := by
  intro offset
  rw [List.append_assoc, h, hmore, byteLength_append, List.append_assoc, Nat.add_assoc]

theorem one {c : Char} (h : ∀ offset, stripFrom state offset (c :: rest) =
    (shown ++ (stripFrom last (offset + c.utf8Size) rest).1,
      (stripFrom last (offset + c.utf8Size) rest).2)) : Strips state [c] shown last rest := by
  intro offset
  rw [byteLength_cons]
  exact h offset

/-- A quoted character stands as it is, unless it is a quote or ends the line. -/
theorem quotedChar {c : Char} (hquote : c ≠ '"') (hnewline : c ≠ '\n')
    (hescape : c = '\\' → nextChar rest ≠ '"') : Strips .quoted [c] [c] .quoted rest := by
  refine one fun offset => ?_
  rw [stripFrom]
  · rfl
  · exact hquote
  · exact hnewline
  · rintro others rfl rfl
    exact hescape rfl rfl

/-- Quoted characters stand as they are, up to a quote that can close them. -/
theorem quotedChars {afterBackslash : Bool}
    (h : escapesQuotes (· == '\n') afterBackslash chars = true)
    (hrest : nextChar rest = '"' → endsInBackslash afterBackslash chars = false) :
    Strips .quoted ((if afterBackslash then ['\\'] else []) ++ chars)
      ((if afterBackslash then ['\\'] else []) ++ chars) .quoted rest := by
  induction chars generalizing afterBackslash with
  | nil =>
    cases afterBackslash with
    | false => exact nil
    | true =>
      exact quotedChar (by decide) (by decide) fun _ hnext => absurd (hrest hnext) (by decide)
  | cons c others ih =>
    obtain ⟨hnewline, hquote, hothers⟩ := escapesQuotes_cons.mp h
    have hlater := ih hothers hrest
    by_cases hc : c = '"'
    · obtain rfl := hquote hc
      subst hc
      have hescaped : Strips .quoted ['\\', '"'] ['\\', '"'] .quoted (others ++ rest) :=
        fun _ => rfl
      exact hescaped.append hlater
    · have hthis : Strips .quoted (c :: others) (c :: others) .quoted rest := by
        by_cases hslash : c = '\\'
        · subst hslash
          exact hlater
        · rw [beq_eq_false_iff_ne.mpr hslash] at hlater
          exact (quotedChar hc (beq_eq_false_iff_ne.mp hnewline) (absurd · hslash)).append hlater
      cases afterBackslash with
      | false => exact hthis
      | true =>
        have hslash : Strips .quoted ['\\'] ['\\'] .quoted (c :: others ++ rest) :=
          quotedChar (by decide) (by decide) fun _ => hc
        exact hslash.append hthis

/-- The characters of a line comment stand as they are. -/
theorem lineComment (h : '\n' ∉ chars) : Strips .lineComment chars chars .lineComment rest := by
  induction chars with
  | nil => exact nil
  | cons c others ih =>
    have hc : Strips .lineComment [c] [c] .lineComment (others ++ rest) := by
      refine one fun offset => ?_
      rw [stripFrom]
      · rfl
      · exact (List.ne_of_not_mem_cons h).symm
    exact hc.append (ih (List.not_mem_of_not_mem_cons h))

/-- The characters of a block comment are blanked, up to the mark that can close it. -/
theorem block {opener : Nat} (h : ¬['*', '/'] <:+: chars)
    (hrest : nextChar rest = '/' → chars.getLast? ≠ some '*') :
    Strips (.block opener) chars (chars.flatMap blankedChar) (.block opener) rest := by
  induction chars with
  | nil => exact nil
  | cons c others ih =>
    have hc : Strips (.block opener) [c] (blankedChar c) (.block opener) (others ++ rest) := by
      refine one fun offset => ?_
      rw [stripFrom]
      rintro behind rfl hbehind
      cases others with
      | nil =>
        obtain rfl : rest = '/' :: behind := hbehind
        exact hrest rfl rfl
      | cons d more =>
        obtain ⟨rfl, -⟩ := List.cons.inj hbehind
        exact h ⟨[], more, rfl⟩
    refine hc.append (ih (fun hlater => h (List.infix_cons hlater)) fun hnext hlast => ?_)
    cases others with
    | nil => cases hlast
    | cons d more => exact hrest hnext hlast

/-- What is quoted, and a line comment, ends with its line. -/
theorem ends (hstate : middle = .quoted ∨ middle = .lineComment) (hrest : nextChar rest = '\n')
    (h : Strips state chars shown middle rest) : Strips state chars shown .code rest := by
  intro offset
  rw [h]
  have hcode (later : Nat) : stripFrom middle later rest = stripFrom .code later rest := by
    cases rest with
    | nil => rcases hstate with rfl | rfl <;> rfl
    | cons c others =>
      obtain rfl : c = '\n' := hrest
      rcases hstate with rfl | rfl <;> rfl
  rw [hcode]

/-- A comment that is closed is blanked with its marks. -/
theorem blockComment (h : ¬['*', '/'] <:+: chars) :
    Strips .code ('/' :: '*' :: chars ++ ['*', '/'])
      (('/' :: '*' :: chars ++ ['*', '/']).flatMap blankedChar) .code rest := by
  intro offset
  have hchars : Strips (.block offset) chars (chars.flatMap blankedChar) (.block offset)
      (['*', '/'] ++ rest) :=
    block h fun hnext => absurd hnext (show '*' ≠ '/' by decide)
  have hopen : stripFrom .code offset ('/' :: '*' :: chars ++ ['*', '/'] ++ rest) =
      (' ' :: ' ' :: (stripFrom (.block offset) (offset + 2) (chars ++ (['*', '/'] ++ rest))).1,
        (stripFrom (.block offset) (offset + 2) (chars ++ (['*', '/'] ++ rest))).2) := by
    rw [List.append_assoc]
    rfl
  have hclose (later : Nat) : stripFrom (.block offset) later (['*', '/'] ++ rest) =
      (' ' :: ' ' :: (stripFrom .code (later + 2) rest).1,
        (stripFrom .code (later + 2) rest).2) := rfl
  have hbytes : offset + byteLength ('/' :: '*' :: chars ++ ['*', '/']) =
      offset + 2 + byteLength chars + 2 := by
    rw [byteLength_append, byteLength_cons, byteLength_cons]
    change offset + (1 + (1 + byteLength chars) + 2) = _
    omega
  rw [hopen, hchars, hclose, hbytes, List.flatMap_append]
  simp only [List.append_assoc]
  rfl

end Strips

/-- A part stays as it is, or is blanked, unless it is a comment that nothing closes. -/
theorem PartBefore.strips {rest : List Char} {part : TextPart} (h : PartBefore rest part)
    (hclosed : ∀ content, part ≠ .blockComment content false) :
    Strips .code part.chars part.shown .code rest := by
  cases h with
  | @code c quote mark slash =>
    refine .one fun offset => ?_
    rw [stripFrom]
    · rfl
    · exact quote
    · exact mark
    · rintro others rfl rfl
      exact (slash rfl).1 rfl
    · rintro others rfl rfl
      exact (slash rfl).2 rfl
  | @quoted content within closes =>
    have hopen : Strips .code ['"'] ['"'] .quoted (content ++ ['"'] ++ rest) := fun _ => rfl
    have hcontent : Strips .quoted content content .quoted (['"'] ++ rest) :=
      .quotedChars within fun _ => endsInBackslash_false.mpr closes
    have hclose : Strips .quoted ['"'] ['"'] .code rest := fun _ => rfl
    exact hopen.append (hcontent.append hclose)
  | @openQuote content within ends =>
    have hopen : Strips .code ['"'] ['"'] .quoted (content ++ rest) := fun _ => rfl
    have hcontent : Strips .quoted content content .quoted rest :=
      .quotedChars within fun hnext => absurd (ends.symm.trans hnext) (by decide)
    have htext := hopen.append (hcontent.ends (.inl rfl) ends)
    rw [← List.append_nil content] at htext
    exact htext
  | @lineComment mark body marked within ends =>
    have hbody : Strips .lineComment body body .code rest :=
      (Strips.lineComment within).ends (.inr rfl) ends
    have hmark : Strips .code mark mark .lineComment (body ++ rest) := by
      rcases marked with rfl | rfl
      · exact fun _ => rfl
      · exact fun _ => rfl
    exact hmark.append hbody
  | blockComment within => exact .blockComment within
  | openBlock => exact absurd rfl (hclosed _)

/-- Nothing closes the comment that starts at the byte. -/
def OpensAt (parts : List TextPart) (opener : Nat) : Prop :=
  ∃ before content, parts = before ++ [.blockComment content false] ∧
    opener = byteLength (before.flatMap TextPart.chars)

/-- A comment that nothing closes is blanked to the end of the text. -/
theorem stripFrom_openBlock {content : List Char} (h : ¬['*', '/'] <:+: content) (offset : Nat) :
    stripFrom .code offset (TextPart.blockComment content false).chars =
      ((TextPart.blockComment content false).shown, some offset) := by
  have hcontent : Strips (.block offset) content (content.flatMap blankedChar) (.block offset) [] :=
    .block h fun hnext => absurd hnext (show '\n' ≠ '/' by decide)
  have hall := hcontent (offset + 2)
  rw [List.append_nil] at hall
  have hchars : (TextPart.blockComment content false).chars = '/' :: '*' :: content :=
    List.append_nil _
  rw [TextPart.shown, hchars, stripFrom, hall]
  exact congrArg (fun chars => (' ' :: ' ' :: chars, some offset)) (List.append_nil _)

/-- What is left of a text is what is left of its parts. A comment that nothing closes is the last
part, and its place is told. -/
theorem PartsTo.strip {text : List Char} {parts : List TextPart} (h : PartsTo [] text parts)
    (offset : Nat) :
    ((∀ content, .blockComment content false ∉ parts) ∧
      stripFrom .code offset text = (parts.flatMap TextPart.shown, none)) ∨
    ∃ opener, OpensAt parts opener ∧
      stripFrom .code offset text = (parts.flatMap TextPart.shown, some (offset + opener)) := by
  induction h generalizing offset with
  | done => exact .inl ⟨fun _ => List.not_mem_nil, rfl⟩
  | @part text part parts first later ih =>
    by_cases hopen : ∃ content, part = .blockComment content false
    · obtain ⟨content, rfl⟩ := hopen
      cases first with
      | openBlock within ends =>
        obtain rfl := later.eq_nil ends
        subst ends
        refine .inr ⟨0, ⟨[], content, rfl, rfl⟩, ?_⟩
        rw [List.append_nil, stripFrom_openBlock within, List.flatMap_singleton, Nat.add_zero]
    · have hclosed : ∀ content, part ≠ .blockComment content false :=
        fun content heq => hopen ⟨content, heq⟩
      have hstrips := first.strips hclosed offset
      rw [List.flatMap_cons]
      rcases ih (offset + byteLength part.chars) with ⟨hnone, hstrip⟩ |
        ⟨opener, ⟨before, content, rfl, rfl⟩, hstrip⟩
      · refine .inl ⟨fun content hmem => ?_, by rw [hstrips, hstrip]⟩
        exact (List.mem_cons.mp hmem).elim (fun heq => hclosed content heq.symm) (hnone content)
      · refine .inr ⟨_, ⟨part :: before, content, rfl, rfl⟩, ?_⟩
        rw [hstrips, hstrip, List.flatMap_cons, byteLength_append, Nat.add_assoc]

theorem Parts.opensAt_iff {text : List Char} {parts : List TextPart} (h : Parts text parts)
    (opener : Nat) : (stripBlockComments text).2 = some opener ↔ OpensAt parts opener := by
  rcases h.strip 0 with ⟨hnone, hstrip⟩ | ⟨found, hfound, hstrip⟩
  · rw [stripBlockComments, hstrip]
    constructor
    · intro hsome
      cases hsome
    · rintro ⟨before, content, rfl, -⟩
      exact absurd (List.mem_append_right before List.mem_cons_self) (hnone content)
  · rw [stripBlockComments, hstrip, Nat.zero_add]
    constructor
    · intro hsome
      exact Option.some.inj hsome ▸ hfound
    · rintro ⟨before, content, hparts, rfl⟩
      obtain ⟨before', content', rfl, rfl⟩ := hfound
      rw [(List.append_inj' hparts rfl).1]

theorem Parts.shown_eq {text : List Char} {parts : List TextPart} (h : Parts text parts) :
    (stripBlockComments text).1 = parts.flatMap TextPart.shown := by
  rcases h.strip 0 with ⟨-, hstrip⟩ | ⟨_, -, hstrip⟩
  · rw [stripBlockComments, hstrip]
  · rw [stripBlockComments, hstrip]

/-! ## What is left is made of parts -/

section Shown

variable {rest text other : List Char} {part : TextPart} {parts : List TextPart}

/-- What a part asks of the character behind it stays so where a comment there is blanked. -/
theorem PartBefore.congr (h : PartBefore text part) (hpart : part.isBlock = false)
    (hnext : nextChar other = nextChar text ∨ nextChar text = '/' ∧ nextChar other = ' ') :
    PartBefore other part := by
  have hends (ends : nextChar text = '\n') : nextChar other = '\n' := by
    rcases hnext with hsame | ⟨hslash, -⟩
    · exact hsame.trans ends
    · exact absurd (hslash.symm.trans ends) (by decide)
  cases h with
  | code quote mark slash =>
    refine .code quote mark fun hc => ?_
    rcases hnext with hsame | ⟨hslash, -⟩
    · rw [hsame]
      exact slash hc
    · exact absurd hslash (slash hc).1
  | quoted within closes => exact .quoted within closes
  | openQuote within ends => exact .openQuote within (hends ends)
  | lineComment marked within ends => exact .lineComment marked within (hends ends)
  | blockComment | openBlock => cases hpart

/-- Characters that open nothing are code. -/
theorem PartsTo.codes {word : List Char} (h : PartsTo rest text parts)
    (hword : ∀ c ∈ word, c ≠ '"' ∧ c ≠ ';' ∧ c ≠ '/') :
    PartsTo rest (word ++ text) (word.map TextPart.code ++ parts) := by
  induction word with
  | nil => exact h
  | cons c others ih =>
    obtain ⟨⟨hquote, hmark, hslash⟩, hothers⟩ := List.forall_mem_cons.mp hword
    exact .part (.code hquote hmark fun hc => absurd hc hslash) (ih hothers)

theorem mem_blankedChar {c d : Char} (h : d ∈ blankedChar c) : d = '\n' ∨ d = ' ' := by
  unfold blankedChar at h
  split at h
  case isTrue => exact .inl (List.mem_singleton.mp h)
  case isFalse => exact .inr (List.eq_of_mem_replicate h)

/-- What is left of a text starts as the text, or with a blank where that starts with a comment. -/
theorem PartsTo.nextChar_shown (h : PartsTo rest text parts) :
    nextChar (parts.flatMap TextPart.shown ++ rest) = nextChar text ∨
      nextChar text = '/' ∧ nextChar (parts.flatMap TextPart.shown ++ rest) = ' ' := by
  cases h with
  | done => exact .inl rfl
  | part first later =>
    cases first with
    | lineComment marked =>
      rcases marked with rfl | rfl
      · exact .inl rfl
      · exact .inl rfl
    | blockComment | openBlock => exact .inr ⟨rfl, rfl⟩
    | _ => exact .inl rfl

/-- What is left of a text is made of what is left of its parts. -/
theorem PartsTo.shown (h : PartsTo rest text parts) :
    PartsTo rest (parts.flatMap TextPart.shown ++ rest) (parts.flatMap TextPart.shownParts) := by
  induction h with
  | done => exact .done
  | @part text part parts first later ih =>
    rw [List.flatMap_cons, List.flatMap_cons, List.append_assoc]
    unfold TextPart.shown TextPart.shownParts
    cases hblock : part.isBlock with
    | true =>
      refine ih.codes fun c hc => ?_
      obtain ⟨d, -, hd⟩ := List.mem_flatMap.mp hc
      rcases mem_blankedChar hd with rfl | rfl
      · decide
      · decide
    | false => exact .part (first.congr hblock later.nextChar_shown) ih

/-- Nothing of what is left is a block comment. -/
theorem isBlock_of_mem_shownParts (h : part ∈ parts.flatMap TextPart.shownParts) :
    part.isBlock = false := by
  obtain ⟨found, -, hpart⟩ := List.mem_flatMap.mp h
  unfold TextPart.shownParts at hpart
  cases hblock : found.isBlock with
  | true =>
    rw [hblock] at hpart
    obtain ⟨c, -, rfl⟩ := List.mem_map.mp hpart
    rfl
  | false =>
    rw [hblock] at hpart
    rw [List.mem_singleton.mp hpart]
    exact hblock

theorem flatMap_shown_eq (h : ∀ part ∈ parts, part.isBlock = false) :
    parts.flatMap TextPart.shown = parts.flatMap TextPart.chars := by
  induction parts with
  | nil => rfl
  | cons part others ih =>
    obtain ⟨hpart, hothers⟩ := List.forall_mem_cons.mp h
    rw [List.flatMap_cons, List.flatMap_cons, ih hothers, TextPart.shown, hpart]
    rfl

/-- Nothing is left to blank in what is left. -/
theorem Parts.strip_shown (h : Parts text parts) :
    stripBlockComments (parts.flatMap TextPart.shown) = (parts.flatMap TextPart.shown, none) := by
  have hshown := PartsTo.shown h
  rw [List.append_nil] at hshown
  have htext := hshown.text_eq
  rw [List.append_nil, ← flatMap_shown_eq fun _ => isBlock_of_mem_shownParts] at htext
  rcases hshown.strip 0 with ⟨-, hstrip⟩ | ⟨opener, ⟨before, content, hparts, -⟩, -⟩
  · rw [stripBlockComments, hstrip, ← htext]
  · have hmem : .blockComment content false ∈ parts.flatMap TextPart.shownParts := by
      rw [hparts]
      exact List.mem_append_right before List.mem_cons_self
    cases isBlock_of_mem_shownParts hmem

end Shown

/-! ## Bytes -/

/-- The bytes of characters. -/
def bytesOf (text : List Char) : List UInt8 := text.flatMap String.utf8EncodeChar

theorem toListLoop_eq (bytes : ByteArray) (index : Nat) (taken : List UInt8) :
    ByteArray.toList.loop bytes index taken =
      taken.reverse ++ bytes.data.toList.drop index := by
  induction index, taken using ByteArray.toList.loop.induct bytes with
  | case1 index taken hindex ih =>
    have hbound : index < bytes.data.toList.length := hindex
    rw [ByteArray.toList.loop, if_pos hindex, ih, List.drop_eq_getElem_cons hbound,
      List.reverse_cons, List.append_assoc, List.singleton_append]
    congr 2
    exact getElem!_pos bytes.data index hindex
  | case2 index taken hindex =>
    rw [ByteArray.toList.loop, if_neg hindex,
      List.drop_eq_nil_of_le (Nat.le_of_not_lt hindex), List.append_nil]

theorem utf8Bytes_eq (text : String) : utf8Bytes text = bytesOf text.toList := by
  have hbytes : text.toByteArray = text.toList.utf8Encode := String.utf8Encode_toList.symm
  rw [utf8Bytes, ByteArray.toList, toListLoop_eq, List.reverse_nil, List.nil_append,
    List.drop_zero, String.toUTF8_eq_toByteArray, hbytes, List.utf8Encode,
    List.toList_data_toByteArray]
  rfl

theorem bytesOf_length (text : List Char) : (bytesOf text).length = byteLength text := by
  induction text with
  | nil => rfl
  | cons c rest ih =>
    rw [bytesOf, List.flatMap_cons, List.length_append, String.length_utf8EncodeChar,
      byteLength_cons, ← ih]
    rfl

theorem bytesOf_append (first second : List Char) :
    bytesOf (first ++ second) = bytesOf first ++ bytesOf second := List.flatMap_append

/-- Only the newline has its byte. -/
theorem newline_notMem_bytes {c : Char} (h : c ≠ '\n') : 10 ∉ String.utf8EncodeChar c := by
  have hcode : c.val.toNat ≠ 10 := fun hval => h (Char.ext (UInt32.toNat_inj.mp hval))
  have hlow {n : Nat} (hn : n < 256) (hne : n ≠ 10) : (10 : UInt8) ≠ UInt8.ofNat n := by
    intro heq
    have hval := congrArg UInt8.toNat heq
    rw [UInt8.toNat_ofNat', Nat.mod_eq_of_lt hn] at hval
    exact hne hval.symm
  unfold String.utf8EncodeChar
  dsimp only
  split
  case isTrue => exact fun hmem => hlow (by omega) hcode (List.mem_singleton.mp hmem)
  case isFalse =>
    split
    case isTrue =>
      simp only [List.mem_cons, List.not_mem_nil, or_false, not_or]
      exact ⟨hlow (by omega) (by omega), hlow (by omega) (by omega)⟩
    case isFalse =>
      split
      case isTrue =>
        simp only [List.mem_cons, List.not_mem_nil, or_false, not_or]
        exact ⟨hlow (by omega) (by omega), hlow (by omega) (by omega), hlow (by omega) (by omega)⟩
      case isFalse =>
        simp only [List.mem_cons, List.not_mem_nil, or_false, not_or]
        exact ⟨hlow (by omega) (by omega), hlow (by omega) (by omega), hlow (by omega) (by omega),
          hlow (by omega) (by omega)⟩

/-- A byte of a block comment as it is left in the text. -/
def blankedByte (byte : UInt8) : UInt8 := if byte = 10 then 10 else 32

theorem bytesOf_blankedChar (c : Char) :
    bytesOf (blankedChar c) = (String.utf8EncodeChar c).map blankedByte := by
  by_cases hc : c = '\n'
  · subst hc
    rfl
  · have hblank : ∀ byte ∈ (String.utf8EncodeChar c).map blankedByte, byte = 32 := by
      intro byte hbyte
      obtain ⟨found, hfound, rfl⟩ := List.mem_map.mp hbyte
      exact if_neg fun heq : found = 10 => newline_notMem_bytes hc (heq ▸ hfound)
    rw [List.eq_replicate_of_mem hblank, List.length_map, String.length_utf8EncodeChar,
      blankedChar, if_neg hc, bytesOf, List.flatMap_replicate]
    exact List.flatten_replicate_singleton

theorem bytesOf_blanked (chars : List Char) :
    bytesOf (chars.flatMap blankedChar) = (bytesOf chars).map blankedByte := by
  induction chars with
  | nil => rfl
  | cons c rest ih =>
    rw [List.flatMap_cons, bytesOf_append, ih, bytesOf_blankedChar, bytesOf, bytesOf,
      List.flatMap_cons, List.map_append]

theorem TextPart.bytesOf_shown (part : TextPart) :
    bytesOf part.shown =
      (bytesOf part.chars).map fun byte => if part.isBlock then blankedByte byte else byte := by
  unfold shown
  cases part.isBlock with
  | true => exact bytesOf_blanked part.chars
  | false => exact (List.map_id _).symm

theorem bytesOf_shown_length (parts : List TextPart) :
    (bytesOf (parts.flatMap TextPart.shown)).length =
      (bytesOf (parts.flatMap TextPart.chars)).length := by
  induction parts with
  | nil => rfl
  | cons part others ih =>
    rw [List.flatMap_cons, List.flatMap_cons, bytesOf_append, bytesOf_append, List.length_append,
      List.length_append, ih, part.bytesOf_shown, List.length_map]

/-- The byte at the index belongs to a block comment. -/
def InBlockComment (parts : List TextPart) (index : Nat) : Prop :=
  ∃ before content closed after, parts = before ++ .blockComment content closed :: after ∧
    byteLength (before.flatMap TextPart.chars) ≤ index ∧
    index < byteLength ((before ++ [.blockComment content closed]).flatMap TextPart.chars)

/-- A byte stays as it is, or is blanked in a block comment. -/
theorem byte_shown {parts : List TextPart} {index : Nat} {byte : UInt8}
    (h : (bytesOf (parts.flatMap TextPart.chars))[index]? = some byte) :
    (bytesOf (parts.flatMap TextPart.shown))[index]? = some byte ∨
      InBlockComment parts index ∧
        (bytesOf (parts.flatMap TextPart.shown))[index]? = some (blankedByte byte) := by
  induction parts generalizing index with
  | nil => cases h
  | cons part others ih =>
    have hlength : (bytesOf part.shown).length = (bytesOf part.chars).length := by
      rw [part.bytesOf_shown, List.length_map]
    rw [List.flatMap_cons, bytesOf_append] at h ⊢
    by_cases hindex : index < (bytesOf part.chars).length
    · rw [List.getElem?_append_left hindex] at h
      rw [List.getElem?_append_left (hlength ▸ hindex), part.bytesOf_shown, List.getElem?_map, h]
      cases part with
      | blockComment content closed =>
        refine .inr ⟨⟨[], content, closed, others, rfl, Nat.zero_le _, ?_⟩, rfl⟩
        rw [bytesOf_length] at hindex
        rw [List.nil_append, List.flatMap_singleton]
        exact hindex
      | _ => exact .inl rfl
    · have hle := Nat.le_of_not_lt hindex
      rw [List.getElem?_append_right hle] at h
      rw [List.getElem?_append_right (hlength ▸ hle), hlength]
      refine (ih h).imp_right fun hblanked => ⟨?_, hblanked.2⟩
      obtain ⟨before, content, closed, after, rfl, hlow, hhigh⟩ := hblanked.1
      rw [bytesOf_length] at hle hlow hhigh
      refine ⟨part :: before, content, closed, after, rfl, ?_, ?_⟩
      · rw [List.flatMap_cons, byteLength_append]
        omega
      · rw [List.cons_append, List.flatMap_cons, byteLength_append]
        omega

/-- From a comment on that nothing closes everything is blank. -/
theorem byte_behind_opener {parts : List TextPart} {opener index : Nat} {byte : UInt8}
    (h : OpensAt parts opener) (hindex : opener ≤ index)
    (hbyte : (bytesOf (parts.flatMap TextPart.shown))[index]? = some byte) :
    byte = 32 ∨ byte = 10 := by
  obtain ⟨before, content, rfl, rfl⟩ := h
  rw [← bytesOf_length, ← bytesOf_shown_length] at hindex
  rw [List.flatMap_append, bytesOf_append, List.getElem?_append_right hindex,
    List.flatMap_singleton, TextPart.bytesOf_shown] at hbyte
  obtain ⟨found, -, rfl⟩ := List.mem_map.mp (List.mem_of_getElem? hbyte)
  change blankedByte found = 32 ∨ blankedByte found = 10
  unfold blankedByte
  split
  · exact .inr rfl
  · exact .inl rfl

/-! ## The shape of a text -/

/-- A text with its block comments blanked. -/
def blanked (text : String) : String := String.ofList (stripBlockComments text.toList).1

theorem blanked_toList (text : String) :
    (blanked text).toList = (stripBlockComments text.toList).1 :=
  String.toList_ofList

/-- The warnings about a source are those about its comments. -/
theorem warnings_eq {source : Nat} {file text : String} {includedFrom : List IncludeSite}
    {read : SourceLines} (h : readSource source file text includedFrom = .ok read) :
    read.warnings = (stripBlockComments text.toList).2.toList.map (unterminatedComment source) := by
  unfold readSource at h
  dsimp only at h
  split at h
  case h_1 =>
    cases h
    rfl
  case h_2 => cases h

/-- Blanking the comments of a text keeps the text in shape: its length in bytes and the places of
its newlines, and every byte that is in no block comment. There is a warning exactly about a comment
that nothing closes, and then all is blank from there on. A second time there is nothing to do. -/
theorem stripBlockComments_shape (text : String) :
    (∃ parts, Parts text.toList parts) ∧ ∀ parts, Parts text.toList parts →
      (utf8Bytes (blanked text)).length = (utf8Bytes text).length ∧
      (∀ index : Nat, (utf8Bytes (blanked text))[index]? = some 10 ↔
        (utf8Bytes text)[index]? = some 10) ∧
      (∀ (index : Nat) (byte : UInt8), (utf8Bytes text)[index]? = some byte →
        (utf8Bytes (blanked text))[index]? = some byte ∨
          InBlockComment parts index ∧ (utf8Bytes (blanked text))[index]? = some 32) ∧
      (∀ opener, (stripBlockComments text.toList).2 = some opener ↔ OpensAt parts opener) ∧
      (∀ source file includedFrom read, readSource source file text includedFrom = .ok read →
        read.warnings = [] ∧ (∀ opener, ¬OpensAt parts opener) ∨
          ∃ opener, OpensAt parts opener ∧ read.warnings = [unterminatedComment source opener]) ∧
      (∀ opener, OpensAt parts opener → ∀ (index : Nat) (byte : UInt8), opener ≤ index →
        (utf8Bytes (blanked text))[index]? = some byte → byte = 32 ∨ byte = 10) ∧
      stripBlockComments (blanked text).toList = ((blanked text).toList, none) := by
  refine ⟨exists_parts text.toList, fun parts hparts => ?_⟩
  have htext := hparts.text_eq
  rw [List.append_nil] at htext
  rw [utf8Bytes_eq, utf8Bytes_eq, blanked_toList, hparts.shown_eq]
  have hlength := bytesOf_shown_length parts
  have hbyte {index : Nat} {byte : UInt8} (h : (bytesOf text.toList)[index]? = some byte) :=
    byte_shown (htext ▸ h)
  refine ⟨htext ▸ hlength, fun index => ?_, fun index byte h => ?_, hparts.opensAt_iff,
    fun source file includedFrom read h => ?_, fun opener h index byte => byte_behind_opener h,
    hparts.strip_shown⟩
  · constructor
    · intro hshown
      obtain ⟨hbound, -⟩ := List.getElem?_eq_some_iff.mp hshown
      rw [hlength, ← htext] at hbound
      have hfound := List.getElem?_eq_getElem hbound
      rcases hbyte hfound with hsame | ⟨-, hblank⟩
      · rw [hfound, ← hsame, hshown]
      · rw [hshown, Option.some.injEq, blankedByte] at hblank
        split at hblank
        case isTrue heq => rw [hfound, heq]
        case isFalse => exact absurd hblank (by decide)
    · intro h
      exact (hbyte h).elim id And.right
  · rcases hbyte h with hsame | ⟨hwithin, hblank⟩
    · exact .inl hsame
    · rw [blankedByte] at hblank
      split at hblank
      case isTrue heq => exact .inl (heq ▸ hblank)
      case isFalse => exact .inr ⟨hwithin, hblank⟩
  · rw [warnings_eq h]
    cases hopener : (stripBlockComments text.toList).2 with
    | none =>
      refine .inl ⟨rfl, fun opener hopens => ?_⟩
      cases hopener.symm.trans ((hparts.opensAt_iff opener).mpr hopens)
    | some opener => exact .inr ⟨opener, (hparts.opensAt_iff opener).mp hopener, rfl⟩

/-- Openers in quotes and behind a semicolon open nothing, and the one in the next line does. -/
theorem stripBlockComments_shape_unclosed :
    Parts "\"/*\";/*\n/*é".toList [.quoted ['/', '*'] true, .lineComment [';'] ['/', '*'],
        .code '\n', .blockComment ['é'] false] ∧
      (stripBlockComments "\"/*\";/*\n/*é".toList).2 = some 8 ∧
      stripBlockComments (blanked "\"/*\";/*\n/*é").toList =
        ((blanked "\"/*\";/*\n/*é").toList, none) := by
  have hblock : PartBefore [] (.blockComment ['é'] false) := .openBlock (by decide) rfl
  have hnewline : PartBefore "/*é".toList (.code '\n') :=
    .code (by decide) (by decide) fun heq => absurd heq (by decide)
  have hline : PartBefore "\n/*é".toList (.lineComment [';'] ['/', '*']) :=
    .lineComment (.inl rfl) (by decide) rfl
  have hquoted : PartBefore ";/*\n/*é".toList (.quoted ['/', '*'] true) :=
    .quoted (by decide) (by decide)
  have hparts : Parts "\"/*\";/*\n/*é".toList [.quoted ['/', '*'] true,
      .lineComment [';'] ['/', '*'], .code '\n', .blockComment ['é'] false] :=
    .part hquoted (.part hline (.part hnewline (.part hblock .done)))
  have hopens : OpensAt [.quoted ['/', '*'] true, .lineComment [';'] ['/', '*'], .code '\n',
      .blockComment ['é'] false] 8 :=
    ⟨[.quoted ['/', '*'] true, .lineComment [';'] ['/', '*'], .code '\n'], ['é'], rfl, rfl⟩
  obtain ⟨-, -, -, hopener, -, -, hagain⟩ := (stripBlockComments_shape _).2 _ hparts
  exact ⟨hparts, (hopener 8).mpr hopens, hagain⟩

end Asm65816
