import Asm65816.Proofs.SpelledLines
import Asm65816.Proofs.TokenPatterns

/-!
# The pieces of a line

A line is cut into pieces from left to right. A piece is the longest start of what is left that
belongs to a class; where there is none, it is one character, or an open quote with the rest of its
line. The tokens and reports of a line are those of its pieces, each at the byte where it starts.
-/

namespace Asm65816

/-! ## Bytes of a text -/

section Bytes

theorem foldl_utf8Size (total : Nat) (text : List Char) :
    text.foldl (fun total c => total + c.utf8Size) total = total + byteLength text := by
  induction text generalizing total with
  | nil => rfl
  | cons c rest ih =>
    rw [byteLength, List.foldl_cons, List.foldl_cons, ih, ih (0 + c.utf8Size), Nat.zero_add,
      Nat.add_assoc]

theorem byteLength_cons (c : Char) (rest : List Char) :
    byteLength (c :: rest) = c.utf8Size + byteLength rest := by
  rw [byteLength, List.foldl_cons, foldl_utf8Size, Nat.zero_add]

theorem byteLength_append (first second : List Char) :
    byteLength (first ++ second) = byteLength first + byteLength second := by
  rw [byteLength, List.foldl_append, foldl_utf8Size]
  rfl

theorem byteLength_pos {text : List Char} (h : text ≠ []) : 0 < byteLength text := by
  obtain ⟨c, rest, rfl⟩ := List.exists_cons_of_ne_nil h
  rw [byteLength_cons]
  exact Nat.add_pos_left c.utf8Size_pos _

end Bytes

/-! ## One piece -/

/-- A piece of a line, and what it amounts to. -/
structure Piece where
  chars : List Char
  reading : Reading

/-- No start of the text in front of `rest` that belongs to a class is longer than these
characters. -/
def LongestStart (chars rest : List Char) : Prop :=
  ∀ (kind : TokenClass) (word behind : List Char), chars ++ rest = word ++ behind →
    word ∈ kind.pattern → word.length ≤ chars.length

/-- No start of the text belongs to a class. -/
def Unmatched (text : List Char) : Prop :=
  ∀ (kind : TokenClass) (word behind : List Char), text = word ++ behind → word ∉ kind.pattern

/-- What the piece in front of a rest is. -/
inductive Cut (rest : List Char) : Piece → Prop where
  | matched {kind : TokenClass} {chars : List Char} (some : chars ≠ [])
      (belongs : chars ∈ kind.pattern) (longest : LongestStart chars rest) :
      Cut rest ⟨chars, kind.read chars⟩
  | unmatched {c : Char} (plain : c ≠ '"') (stray : Unmatched (c :: rest)) :
      Cut rest ⟨[c], .invalid⟩
  | openQuote {body : List Char} (stray : Unmatched ('"' :: body ++ rest))
      (within : ∀ c ∈ body, endsLine c = false) (ends : ∀ c ∈ rest.head?, endsLine c = true) :
      Cut rest ⟨'"' :: body, .invalid⟩

namespace TokenClass

variable {kind : TokenClass} {text : List Char} {reached : Nat}

/-- The class that is chosen takes the longest start. -/
theorem longestStart_of_furthest? (h : furthest? text = some (kind, reached)) :
    ∃ chars rest, text = chars ++ rest ∧ chars.length = reached ∧ chars ≠ [] ∧
      chars ∈ kind.pattern ∧ LongestStart chars rest := by
  obtain ⟨rfl, hpos⟩ := reach_of_furthest? h
  obtain ⟨chars, rest, rfl, hlength, hbelongs⟩ := (kind.munches text).belongs hpos
  refine ⟨chars, rest, rfl, hlength, ?_, hbelongs, ?_⟩
  · rw [← hlength] at hpos
    exact List.length_pos_iff.mp hpos
  · intro other word behind htext hword
    have hword := ((other.munches (chars ++ rest)).longest word behind htext hword).2
    have hother := other.reach_le_furthest? (chars ++ rest)
    rw [h] at hother
    exact (Nat.le_trans hword hother).trans_eq hlength.symm

/-- Where no class is chosen there is nothing to choose. -/
theorem unmatched_of_furthest? (h : furthest? text = none) : Unmatched text := by
  intro kind word behind htext hword
  obtain ⟨hsome, hle⟩ := (kind.munches text).longest word behind htext hword
  have hreach := kind.reach_le_furthest? text
  rw [h] at hreach
  have hpos := List.length_pos_iff.mpr hsome
  change kind.reach text ≤ 0 at hreach
  omega

end TokenClass

/-- The next piece of a text is cut from its front. -/
theorem nextPiece_cut {text : List Char} (h : text ≠ []) :
    ∃ chars rest, text = chars ++ rest ∧ (nextPiece text).1 = chars.length ∧
      Cut rest ⟨chars, (nextPiece text).2⟩ := by
  unfold nextPiece
  split
  case h_1 kind reached hfurthest =>
    obtain ⟨chars, rest, rfl, rfl, hsome, hbelongs, hlongest⟩ :=
      TokenClass.longestStart_of_furthest? hfurthest
    refine ⟨chars, rest, rfl, rfl, ?_⟩
    rw [List.take_left]
    exact .matched hsome hbelongs hlongest
  case h_2 hfurthest =>
    have hstray := TokenClass.unmatched_of_furthest? hfurthest
    split
    case h_1 rest =>
      have hsplit := List.takeWhile_append_dropWhile (p := fun c => !endsLine c) (l := rest)
      refine ⟨'"' :: rest.takeWhile fun c => !endsLine c, rest.dropWhile fun c => !endsLine c,
        congrArg _ hsplit.symm, Nat.add_comm _ _, .openQuote ?_ ?_ ?_⟩
      · rwa [List.cons_append, hsplit]
      · intro c hc
        exact (Bool.not_eq_true' _).mp (List.all_eq_true.mp List.all_takeWhile c hc)
      · intro c hc
        have hends := List.head?_dropWhile_not (fun c => !endsLine c) rest
        rw [Option.mem_def.mp hc] at hends
        exact Bool.not_eq_false' _ |>.mp hends
    case h_2 hquote =>
      obtain ⟨c, rest, rfl⟩ := List.exists_cons_of_ne_nil h
      exact ⟨[c], rest, rfl, rfl, .unmatched (fun hc => hquote rest (hc ▸ rfl)) hstray⟩

theorem Cut.ne_nil {rest : List Char} {piece : Piece} (h : Cut rest piece) : piece.chars ≠ [] := by
  cases h with
  | matched some => exact some
  | unmatched | openQuote => exact List.cons_ne_nil _ _

/-! ## All pieces -/

/-- The pieces that a line is cut into. -/
def cutLine : List Char → List Piece
  | [] => []
  | c :: rest =>
    let next := nextPiece (c :: rest)
    ⟨(c :: rest).take next.1, next.2⟩ :: cutLine (rest.drop (next.1 - 1))
termination_by text => text.length
decreasing_by simp only [List.length_drop, List.length_cons]; omega

/-- A text is made of pieces that are cut from it one after the other. -/
inductive CutInto : List Char → List Piece → Prop where
  | done : CutInto [] []
  | piece {rest : List Char} {piece : Piece} {pieces : List Piece} (first : Cut rest piece)
      (later : CutInto rest pieces) : CutInto (piece.chars ++ rest) (piece :: pieces)

/-- The pieces of a text are the next one and those of what is left. -/
theorem cutLine_append {chars rest : List Char} (hsome : chars ≠ [])
    (h : (nextPiece (chars ++ rest)).1 = chars.length) :
    cutLine (chars ++ rest) = ⟨chars, (nextPiece (chars ++ rest)).2⟩ :: cutLine rest := by
  obtain ⟨c, others, rfl⟩ := List.exists_cons_of_ne_nil hsome
  rw [List.cons_append] at h ⊢
  rw [cutLine, h, ← List.cons_append, List.take_left, List.length_cons, Nat.add_sub_cancel,
    List.drop_left]

theorem cutInto_cutLine (text : List Char) : CutInto text (cutLine text) := by
  induction hlength : text.length using Nat.strongRecOn generalizing text with
  | ind count ih =>
    by_cases hsome : text = []
    · rw [hsome, cutLine]
      exact .done
    · obtain ⟨chars, rest, rfl, hnext, hcut⟩ := nextPiece_cut hsome
      rw [cutLine_append hcut.ne_nil hnext]
      have hpos : 0 < chars.length := List.length_pos_iff.mpr hcut.ne_nil
      rw [List.length_append] at hlength
      exact .piece hcut (ih rest.length (by omega) rest rfl)

namespace CutInto

/-- Nothing is lost or moved. -/
theorem flatten {text : List Char} {pieces : List Piece} (h : CutInto text pieces) :
    text = pieces.flatMap Piece.chars := by
  induction h with
  | done => rfl
  | piece first later ih => rw [List.flatMap_cons, ← ih]

/-- A piece is cut from what the pieces before it leave. -/
theorem split {text : List Char} {before after : List Piece} {piece : Piece}
    (h : CutInto text (before ++ piece :: after)) :
    ∃ rest, text = before.flatMap Piece.chars ++ piece.chars ++ rest ∧ Cut rest piece := by
  induction before generalizing text with
  | nil =>
    cases h with
    | @piece rest _ _ first later => exact ⟨rest, rfl, first⟩
  | cons other others ih =>
    cases h with
    | piece first later =>
      obtain ⟨rest, rfl, hcut⟩ := ih later
      refine ⟨rest, ?_, hcut⟩
      rw [List.flatMap_cons, List.append_assoc, List.append_assoc, List.append_assoc]

end CutInto

/-! ## Results -/

/-- The span of a piece that starts at byte `offset`. -/
def Piece.span (source offset : Nat) (piece : Piece) : Span :=
  ⟨source, offset, offset + byteLength piece.chars⟩

/-- The token or report of a piece that starts at byte `offset`. -/
def Piece.result? (source offset : Nat) (piece : Piece) : Option (Except Diagnostic Token) :=
  match piece.reading with
  | .skipped => none
  | .token kind => some (.ok ⟨kind, piece.span source offset, String.ofList piece.chars⟩)
  | .invalid => some (.error (unexpectedToken (piece.span source offset) piece.chars))

/-- The tokens and reports of pieces behind each other. -/
def resultsFrom (source : Nat) : Nat → List Piece → List (Except Diagnostic Token)
  | _, [] => []
  | offset, piece :: later =>
    (piece.result? source offset).toList ++
      resultsFrom source (offset + byteLength piece.chars) later

/-- Each result is that of a piece, which stands behind the pieces before it. -/
theorem exists_of_mem_resultsFrom {source offset : Nat} {pieces : List Piece}
    {result : Except Diagnostic Token} (h : result ∈ resultsFrom source offset pieces) :
    ∃ before piece after, pieces = before ++ piece :: after ∧
      piece.result? source (offset + byteLength (before.flatMap Piece.chars)) = some result := by
  induction pieces generalizing offset with
  | nil => cases h
  | cons first later ih =>
    rcases List.mem_append.mp h with hfirst | hlater
    · exact ⟨[], first, later, rfl, Option.mem_toList.mp hfirst⟩
    · obtain ⟨before, piece, after, rfl, hresult⟩ := ih hlater
      refine ⟨first :: before, piece, after, rfl, ?_⟩
      rwa [List.flatMap_cons, byteLength_append, ← Nat.add_assoc]

/-- The piece before is passed over to the byte behind it. -/
theorem scan_behind (source offset : Nat) (piece rest : List Char) :
    scan source offset piece.length (piece ++ rest) =
      scan source (offset + byteLength piece) 0 rest := by
  induction piece generalizing offset with
  | nil => rfl
  | cons c others ih =>
    rw [byteLength_cons, ← Nat.add_assoc, ← ih]
    rfl

/-- The piece in front of a text gives its result, and then the rest gives its own. -/
theorem scan_cut {source offset : Nat} {chars rest : List Char} (hsome : chars ≠ [])
    (h : (nextPiece (chars ++ rest)).1 = chars.length) :
    scan source offset 0 (chars ++ rest) =
      (Piece.result? source offset ⟨chars, (nextPiece (chars ++ rest)).2⟩).toList ++
        scan source (offset + byteLength chars) 0 rest := by
  obtain ⟨c, others, rfl⟩ := List.exists_cons_of_ne_nil hsome
  have hbehind := scan_behind source (offset + c.utf8Size) others rest
  rw [byteLength_cons, ← Nat.add_assoc, ← hbehind]
  rw [List.cons_append] at h ⊢
  rw [scan]
  cases hnext : nextPiece (c :: (others ++ rest)) with
  | mk length reading =>
    rw [hnext] at h
    obtain rfl : length = (c :: others).length := h
    dsimp only
    rw [← List.cons_append, List.take_left, List.length_cons, Nat.add_sub_cancel]
    cases reading with
    | skipped | token | invalid => rfl

/-- The tokens and reports of a text are those of its pieces. -/
theorem scan_eq_results (source offset : Nat) (text : List Char) :
    scan source offset 0 text = resultsFrom source offset (cutLine text) := by
  induction hlength : text.length using Nat.strongRecOn generalizing text offset with
  | ind count ih =>
    by_cases hsome : text = []
    · rw [hsome, cutLine]
      rfl
    · obtain ⟨chars, rest, rfl, hnext, hcut⟩ := nextPiece_cut hsome
      have hpos : 0 < chars.length := List.length_pos_iff.mpr hcut.ne_nil
      rw [List.length_append] at hlength
      rw [cutLine_append hcut.ne_nil hnext, scan_cut hcut.ne_nil hnext,
        ih rest.length (by omega) _ rest rfl]
      rfl

/-- A line is read where all results of its pieces are tokens. -/
theorem lexLine_eq_ok {source offset : Nat} {text : List Char} {tokens : List Token} :
    lexLine source offset text = .ok tokens ↔
      resultsFrom source offset (cutLine text) = tokens.map .ok := by
  rw [lexLine, scan_eq_results]
  generalize resultsFrom source offset (cutLine text) = results
  constructor
  · intro h
    split at h
    case h_1 hnone =>
      cases h
      induction results with
      | nil => rfl
      | cons result rest ih =>
        cases result with
        | error report => cases hnone
        | ok token => exact congrArg (.ok token :: ·) (ih hnone)
    case h_2 => cases h
  · rintro rfl
    rw [failures_map_ok, filterMap_toOption_map_ok]

/-- Otherwise the reports of its pieces are given. -/
theorem lexLine_eq_error {source offset : Nat} {text : List Char} {reports : List Diagnostic} :
    lexLine source offset text = .error reports ↔
      reports ≠ [] ∧ failures (resultsFrom source offset (cutLine text)) = reports := by
  rw [lexLine, scan_eq_results]
  split
  case h_1 hnone =>
    rw [hnone]
    constructor
    · intro h
      cases h
    · exact fun h => absurd h.2.symm h.1
  case h_2 hsome =>
    constructor
    · intro h
      cases h
      exact ⟨hsome, rfl⟩
    · exact fun h => congrArg Except.error h.2

/-- A token of a line is read from a piece of the line, by the class that the piece belongs to. -/
theorem lexLine_token_cut {source offset : Nat} {text : List Char} {tokens : List Token}
    (h : lexLine source offset text = .ok tokens) {token : Token} (htoken : token ∈ tokens) :
    ∃ kind : TokenClass, token.text.toList ∈ kind.pattern ∧
      kind.read token.text.toList = .token token.kind := by
  have hmem : .ok token ∈ resultsFrom source offset (cutLine text) := by
    rw [lexLine_eq_ok.mp h]
    exact List.mem_map_of_mem htoken
  obtain ⟨before, piece, after, hpieces, hresult⟩ := exists_of_mem_resultsFrom hmem
  obtain ⟨rest, -, hcut⟩ := (hpieces ▸ cutInto_cutLine text).split
  cases hcut with
  | unmatched | openQuote => cases hresult
  | @matched kind chars some belongs longest =>
    unfold Piece.result? at hresult
    dsimp only at hresult
    cases hread : kind.read chars with
    | skipped | invalid =>
      rw [hread] at hresult
      cases hresult
    | token found =>
      rw [hread] at hresult
      cases hresult
      refine ⟨kind, ?_, ?_⟩
      · rwa [String.toList_ofList]
      · rwa [String.toList_ofList]

end Asm65816
