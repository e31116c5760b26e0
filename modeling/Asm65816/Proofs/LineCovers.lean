import Asm65816.Proofs.NumberTokens

/-!
# How tokens cover a line

The tokens of a line stand in their order, each as long as it can be, and between them there are
blanks and comments only. Where a line has no tokens, each report names a piece that starts where no
class matches, or a number that its digits do not state.
-/

namespace Asm65816

open scoped Computability

/-! ## The text of a token -/

/-- The texts that a token is written as. -/
def TokenKind.pattern : TokenKind → Language Char
  | punct sign => {text | (text, sign) ∈ Punct.spellings}
  | .text _ false => TokenClass.text.pattern
  | .text _ true => TokenClass.petsciiText.pattern
  | number n => n.radix.tokenClass.pattern
  | name _ => TokenClass.name.pattern + TokenClass.localName.pattern + TokenClass.argument.pattern

/-- A spelling is the longest sign at its own start. -/
theorem longestPunct?_of_belongs {text : List Char} (h : text ∈ TokenClass.punct.pattern) :
    ∃ sign, longestPunct? text = some (text, sign) ∧ (text, sign) ∈ Punct.spellings := by
  obtain ⟨sign, hsign⟩ := h
  have hsome : text ≠ [] := by
    have hall : ∀ spelling ∈ Punct.spellings, spelling.1 ≠ [] := by decide
    exact hall _ hsign
  have hle := length_le_longestPunct? hsign (List.isPrefixOf_iff_prefix.mpr List.prefix_rfl)
  cases hlongest : longestPunct? text with
  | none =>
    rw [hlongest] at hle
    exact absurd (List.length_eq_zero_iff.mp (Nat.le_zero.mp hle)) hsome
  | some found =>
    rw [hlongest] at hle
    rw [longestPunct?_eq_longest?] at hlongest
    obtain ⟨hmem, hprefix, -⟩ := longest?_mem hlongest
    have hsame := (List.isPrefixOf_iff_prefix.mp hprefix).eq_of_length_le hle
    obtain ⟨found, other⟩ := found
    obtain rfl : found = text := hsame
    exact ⟨other, rfl, hmem⟩

namespace TokenClass

variable {kind : TokenClass} {text : List Char}

/-- What a piece of a class amounts to: nothing for blanks and comments, a token that the text can
be written as, or a number that the digits do not state. -/
theorem read_of_belongs (h : text ∈ kind.pattern) :
    (kind = blank ∨ kind = comment) ∧ kind.read text = .skipped ∨
      (∃ token : TokenKind, kind.read text = .token token ∧ text ∈ token.pattern) ∨
      kind.read text = .invalid ∧ ∃ (radix : Radix) (digits : List Char),
        kind = radix.tokenClass ∧ Numeral radix text digits ∧ radix.Unrepresentable digits := by
  have hnumber (radix : Radix) (hkind : kind = radix.tokenClass) :
      (∃ token : TokenKind, kind.read text = .token token ∧ text ∈ token.pattern) ∨
        kind.read text = .invalid ∧ ∃ (radix : Radix) (digits : List Char),
          kind = radix.tokenClass ∧ Numeral radix text digits ∧ radix.Unrepresentable digits := by
    subst hkind
    obtain ⟨digits, hnumeral, hread⟩ := radix.exists_numeral h
    rw [hread]
    rcases radix.readDigits_cases digits with ⟨n, rfl, hn⟩ | ⟨hinvalid, hwrong⟩
    · exact .inl ⟨_, hn, h⟩
    · exact .inr ⟨hinvalid, radix, digits, rfl, hnumeral, hwrong⟩
  cases kind with
  | blank => exact .inl ⟨.inl rfl, rfl⟩
  | comment => exact .inl ⟨.inr rfl, rfl⟩
  | punct =>
    obtain ⟨sign, hlongest, hmem⟩ := longestPunct?_of_belongs h
    refine .inr (.inl ⟨.punct sign, ?_, hmem⟩)
    rw [read, hlongest]
  | text | petsciiText => exact .inr (.inl ⟨_, rfl, h⟩)
  | name => exact .inr (.inl ⟨_, rfl, .inl (.inl h)⟩)
  | localName => exact .inr (.inl ⟨_, rfl, .inl (.inr h)⟩)
  | argument => exact .inr (.inl ⟨_, rfl, .inr h⟩)
  | hexadecimal => exact .inr (hnumber .hexadecimal rfl)
  | octal => exact .inr (hnumber .octal rfl)
  | binary => exact .inr (hnumber .binary rfl)
  | decimal => exact .inr (hnumber .decimal rfl)

end TokenClass

/-! ## Gaps -/

/-- A comment is a mark and all that follows it on its line. -/
theorem comment_of_belongs {chars rest : List Char} (h : chars ∈ TokenClass.comment.pattern)
    (hlongest : LongestStart chars rest) :
    ∃ mark ∈ [[';'], ['/', '/']], ∃ body, chars = mark ++ body ∧
      (∀ c ∈ body, endsLine c = false) ∧ ∀ c ∈ rest.head?, endsLine c = true := by
  obtain ⟨mark, hmark, body, hbody, rfl⟩ := mem_twoMarks h
  have hwithin := mem_star_oneOf.mp hbody
  refine ⟨mark, hmark, body, rfl, fun c hc => (Bool.not_eq_true' _).mp (hwithin c hc),
    fun c hc => (Bool.not_eq_false _).mp fun hends => ?_⟩
  -- One more character within the line would make a longer comment.
  obtain ⟨behind, rfl⟩ := List.head?_eq_some_iff.mp hc
  have hlonger : mark ++ (body ++ [c]) ∈ TokenClass.comment.pattern := by
    refine Language.append_mem_mul ?_ (mem_star_oneOf.mpr ?_)
    · exact (List.mem_pair.mp hmark).imp id id
    · refine List.forall_mem_append.mpr ⟨hwithin, List.forall_mem_singleton.mpr ?_⟩
      rw [hends]
      rfl
  have hle := hlongest .comment (mark ++ (body ++ [c])) behind (by simp) hlonger
  simp only [List.length_append, List.length_singleton] at hle
  omega

/-- What stands between tokens: blanks, and comments that go on to the end of their line. -/
inductive Gap (rest : List Char) : List Char → Prop where
  | nil : Gap rest []
  | blank {c : Char} {gap : List Char} (space : isSpacing c = true) (later : Gap rest gap) :
      Gap rest (c :: gap)
  | comment {mark body gap : List Char} (marked : mark = [';'] ∨ mark = ['/', '/'])
      (within : ∀ c ∈ body, endsLine c = false)
      (ends : ∀ c ∈ (gap ++ rest).head?, endsLine c = true) (later : Gap rest gap) :
      Gap rest (mark ++ body ++ gap)

namespace Gap

variable {rest gap chars : List Char}

theorem blanks (h : ∀ c ∈ chars, isSpacing c = true) (hgap : Gap rest gap) :
    Gap rest (chars ++ gap) := by
  induction chars with
  | nil => exact hgap
  | cons c others ih =>
    obtain ⟨hc, hothers⟩ := List.forall_mem_cons.mp h
    exact .blank hc (ih hothers)

/-- A piece that is skipped goes on with the gap behind it. -/
theorem piece {kind : TokenClass} (hkind : kind = .blank ∨ kind = .comment)
    (hbelongs : chars ∈ kind.pattern) (hlongest : LongestStart chars (gap ++ rest))
    (hgap : Gap rest gap) : Gap rest (chars ++ gap) := by
  rcases hkind with rfl | rfl
  · exact blanks (mem_someOf.mp hbelongs).2 hgap
  · obtain ⟨mark, hmark, body, rfl, hwithin, hends⟩ := comment_of_belongs hbelongs hlongest
    exact .comment (List.mem_pair.mp hmark) hwithin hends hgap

end Gap

/-! ## Covers -/

/-- The tokens of a text that starts at byte `offset` cover it, up to gaps. -/
inductive LineCover (source : Nat) : Nat → List Char → List Token → Prop where
  | done {offset : Nat} {gap : List Char} (blank : Gap [] gap) : LineCover source offset gap []
  | token {offset : Nat} {gap chars rest : List Char} {kind : TokenKind} {tokens : List Token}
      (blank : Gap (chars ++ rest) gap) (some : chars ≠ []) (belongs : chars ∈ kind.pattern)
      (longest : LongestStart chars rest)
      (later : LineCover source (offset + byteLength (gap ++ chars)) rest tokens) :
      LineCover source offset (gap ++ (chars ++ rest))
        (⟨kind, ⟨source, offset + byteLength gap, offset + byteLength (gap ++ chars)⟩,
          String.ofList chars⟩ :: tokens)

namespace LineCover

variable {source offset : Nat} {text : List Char} {tokens : List Token}

/-- A piece that is skipped makes the first gap longer. -/
theorem skip {kind : TokenClass} {chars : List Char} (hkind : kind = .blank ∨ kind = .comment)
    (hbelongs : chars ∈ kind.pattern) (hlongest : LongestStart chars text)
    (h : LineCover source (offset + byteLength chars) text tokens) :
    LineCover source offset (chars ++ text) tokens := by
  cases h with
  | done blank =>
    rw [← List.append_nil text] at hlongest
    exact .done (blank.piece hkind hbelongs hlongest)
  | @token _ gap found rest token others blank some belongs longest later =>
    have hgap := blank.piece hkind hbelongs hlongest
    rw [← List.append_assoc chars gap, Nat.add_assoc, Nat.add_assoc, ← byteLength_append,
      ← byteLength_append, ← List.append_assoc chars gap]
    refine .token hgap some belongs longest ?_
    rwa [Nat.add_assoc, ← byteLength_append, ← List.append_assoc chars gap] at later

/-- Pieces whose results are tokens cover their text. -/
theorem of_cutInto {pieces : List Piece} (h : CutInto text pieces)
    (hresults : resultsFrom source offset pieces = tokens.map .ok) :
    LineCover source offset text tokens := by
  induction h generalizing offset tokens with
  | done =>
    obtain rfl := List.map_eq_nil_iff.mp hresults.symm
    exact .done .nil
  | @piece rest piece pieces first later ih =>
    cases first with
    | unmatched | openQuote =>
      obtain ⟨token, others, -, hcons, -⟩ := List.map_eq_cons_iff.mp hresults.symm
      cases hcons
    | @matched kind chars some belongs longest =>
      unfold resultsFrom Piece.result? at hresults
      rcases TokenClass.read_of_belongs belongs with
        ⟨hkind, hread⟩ | ⟨token, hread, hpattern⟩ | ⟨hread, -⟩
      · rw [hread] at hresults
        exact skip hkind belongs longest (ih hresults)
      · rw [hread] at hresults
        obtain ⟨found, others, rfl, hfound, hothers⟩ := List.map_eq_cons_iff.mp hresults.symm
        cases hfound
        have hcover := LineCover.token .nil some hpattern longest (ih hothers.symm)
        exact hcover
      · rw [hread] at hresults
        obtain ⟨token, others, -, hcons, -⟩ := List.map_eq_cons_iff.mp hresults.symm
        cases hcons

/-- No token starts before the text. -/
theorem offset_le (h : LineCover source offset text tokens) :
    ∀ token ∈ tokens, offset ≤ token.span.start := by
  induction h with
  | done => nofun
  | token blank some belongs longest later ih =>
    refine List.forall_mem_cons.mpr ⟨Nat.le_add_right _ _, fun token htoken => ?_⟩
    exact Nat.le_trans (Nat.le_add_right _ _) (ih token htoken)

/-- A token starts where those before it have ended. -/
theorem ordered (h : LineCover source offset text tokens) :
    tokens.Pairwise fun first second => first.span.stop ≤ second.span.start := by
  induction h with
  | done => exact .nil
  | token blank some belongs longest later ih => exact .cons later.offset_le ih

/-- The text of a token is the part of the line at its span. -/
theorem slices (h : LineCover source offset text tokens) :
    ∀ token ∈ tokens, token.span.start < token.span.stop ∧
      ∃ front back, text = front ++ token.text.toList ++ back ∧
        token.span = ⟨source, offset + byteLength front,
          offset + byteLength (front ++ token.text.toList)⟩ := by
  induction h with
  | done => nofun
  | @token offset gap chars rest kind tokens blank some belongs longest later ih =>
    refine List.forall_mem_cons.mpr ⟨⟨?_, gap, rest, ?_⟩, fun token htoken => ?_⟩
    · have hpos := byteLength_pos some
      rw [byteLength_append, ← Nat.add_assoc]
      exact Nat.lt_add_of_pos_right hpos
    · rw [String.toList_ofList, List.append_assoc]
      exact ⟨rfl, rfl⟩
    · obtain ⟨hpos, front, back, rfl, hspan⟩ := ih token htoken
      refine ⟨hpos, gap ++ chars ++ front, back, ?_, ?_⟩
      · simp only [List.append_assoc]
      · rw [hspan, List.append_assoc _ front, byteLength_append (gap ++ chars) front,
          byteLength_append (gap ++ chars) (front ++ _), Nat.add_assoc, Nat.add_assoc]

end LineCover

/-! ## Reports -/

/-- Each report of a line names a piece of it, which starts where no class matches, or is a number
that its digits do not state. -/
theorem report_of_mem_results {source offset : Nat} {text : List Char} {report : Diagnostic}
    (h : .error report ∈ resultsFrom source offset (cutLine text)) :
    ∃ front chars rest, text = front ++ chars ++ rest ∧ chars ≠ [] ∧
      report = unexpectedToken
        ⟨source, offset + byteLength front, offset + byteLength (front ++ chars)⟩ chars ∧
      (Unmatched (chars ++ rest) ∨ ∃ (radix : Radix) (digits : List Char),
        chars ∈ radix.tokenClass.pattern ∧ Numeral radix chars digits ∧
          radix.Unrepresentable digits) := by
  obtain ⟨before, piece, after, hpieces, hresult⟩ := exists_of_mem_resultsFrom h
  obtain ⟨rest, htext, hcut⟩ := (hpieces ▸ cutInto_cutLine text).split
  refine ⟨before.flatMap Piece.chars, piece.chars, rest, htext, hcut.ne_nil, ?_⟩
  rw [byteLength_append, ← Nat.add_assoc]
  unfold Piece.result? at hresult
  cases hcut with
  | unmatched _ stray | openQuote stray =>
    cases hresult
    exact ⟨rfl, .inl stray⟩
  | @matched kind chars some belongs longest =>
    rcases TokenClass.read_of_belongs belongs with
      ⟨-, hread⟩ | ⟨token, hread, -⟩ | ⟨hread, radix, digits, rfl, hnumeral, hwrong⟩
    · rw [hread] at hresult
      cases hresult
    · rw [hread] at hresult
      cases hresult
    · rw [hread] at hresult
      cases hresult
      exact ⟨rfl, .inr ⟨radix, digits, belongs, hnumeral, hwrong⟩⟩

/-! ## The cover of a line -/

/-- The tokens of a line cover it in order, each as long as it can be, and the gaps between them
are blanks and comments. A line that has no tokens has reports, each on a piece that no class takes
or on a number that its digits do not state. -/
theorem lexLine_covers (source offset : Nat) (text : List Char) :
    (∀ tokens, lexLine source offset text = .ok tokens →
      LineCover source offset text tokens ∧
      tokens.Pairwise (fun first second => first.span.stop ≤ second.span.start) ∧
      ∀ token ∈ tokens, token.span.start < token.span.stop ∧
        ∃ front back, text = front ++ token.text.toList ++ back ∧
          token.span = ⟨source, offset + byteLength front,
            offset + byteLength (front ++ token.text.toList)⟩) ∧
    ∀ reports, lexLine source offset text = .error reports →
      reports ≠ [] ∧ ∀ report ∈ reports,
        ∃ front chars rest, text = front ++ chars ++ rest ∧ chars ≠ [] ∧
          report = unexpectedToken
            ⟨source, offset + byteLength front, offset + byteLength (front ++ chars)⟩ chars ∧
          (Unmatched (chars ++ rest) ∨ ∃ (radix : Radix) (digits : List Char),
            chars ∈ radix.tokenClass.pattern ∧ Numeral radix chars digits ∧
              radix.Unrepresentable digits) := by
  constructor
  · intro tokens htokens
    have hcover := LineCover.of_cutInto (cutInto_cutLine text) (lexLine_eq_ok.mp htokens)
    exact ⟨hcover, hcover.ordered, hcover.slices⟩
  · intro reports hreports
    obtain ⟨hsome, rfl⟩ := lexLine_eq_error.mp hreports
    refine ⟨hsome, fun report hreport => ?_⟩
    obtain ⟨result, hresult, herror⟩ := List.mem_filterMap.mp hreport
    cases result with
    | ok token => cases herror
    | error found =>
      cases herror
      exact report_of_mem_results hresult

/-- A quote behind a backslash goes on with its text, and a colon with its digits. A binary number
without digits is reported. -/
theorem lexLine_covers_escaped :
    (lexLine 0 7 " \"a\\\"b\" $0e:1;x".toList =
        .ok [⟨.text "a\"b" false, ⟨0, 8, 14⟩, "\"a\\\"b\""⟩,
          ⟨.number ⟨225, .hexadecimal, 2⟩, ⟨0, 15, 20⟩, "$0e:1"⟩] ∧
      LineCover 0 7 " \"a\\\"b\" $0e:1;x".toList
        [⟨.text "a\"b" false, ⟨0, 8, 14⟩, "\"a\\\"b\""⟩,
          ⟨.number ⟨225, .hexadecimal, 2⟩, ⟨0, 15, 20⟩, "$0e:1"⟩]) ∧
    lexLine 0 0 "%_".toList = .error [unexpectedToken ⟨0, 0, 2⟩ "%_".toList] ∧
      ∃ front chars rest, "%_".toList = front ++ chars ++ rest ∧ chars ≠ [] ∧
        unexpectedToken ⟨0, 0, 2⟩ "%_".toList =
          unexpectedToken ⟨0, 0 + byteLength front, 0 + byteLength (front ++ chars)⟩ chars ∧
        (Unmatched (chars ++ rest) ∨ ∃ (radix : Radix) (digits : List Char),
          chars ∈ radix.tokenClass.pattern ∧ Numeral radix chars digits ∧
            radix.Unrepresentable digits) := by
  have hread : lexLine 0 7 " \"a\\\"b\" $0e:1;x".toList =
      .ok [⟨.text "a\"b" false, ⟨0, 8, 14⟩, "\"a\\\"b\""⟩,
        ⟨.number ⟨225, .hexadecimal, 2⟩, ⟨0, 15, 20⟩, "$0e:1"⟩] := by
    rfl
  have hreported : lexLine 0 0 "%_".toList = .error [unexpectedToken ⟨0, 0, 2⟩ "%_".toList] := by
    rfl
  refine ⟨⟨hread, ((lexLine_covers 0 7 _).1 _ hread).1⟩, hreported, ?_⟩
  exact ((lexLine_covers 0 0 _).2 _ hreported).2 _ List.mem_cons_self

end Asm65816
