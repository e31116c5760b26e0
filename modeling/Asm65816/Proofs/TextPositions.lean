import Mathlib.Data.List.Pairwise
import Asm65816.Proofs.CommentParts
import Asm65816.Proofs.LineCovers
import Asm65816.Proofs.PastedSources

/-!
# Positions in a text

The number of a line is counted while its text is read with the block comments blanked, and the
position of an offset is looked up in the text as it was written. Both see the same newlines, so
every part of a line stands within the bytes of one line of the text, the line of its number.
-/

namespace Asm65816

/-! ## Newlines -/

/-- The places of the newlines among bytes. -/
def newlineMask (bytes : List UInt8) : List Bool := bytes.map (· == 10)

theorem bytesOf_cons (c : Char) (rest : List Char) :
    bytesOf (c :: rest) = String.utf8EncodeChar c ++ bytesOf rest := List.flatMap_cons

theorem bytesOf_newline (rest : List Char) : bytesOf ('\n' :: rest) = 10 :: bytesOf rest := rfl

/-- The offsets just after the newlines of a text are those of its bytes. -/
theorem offsetsAfterNewlines_eq (offset : Nat) (text : List Char) :
    offsetsAfterNewlines offset text = (bytesOf text).findIdxs (· == 10) (offset + 1) := by
  induction text generalizing offset with
  | nil => rfl
  | cons c rest ih =>
    rw [offsetsAfterNewlines]
    by_cases hc : c = '\n'
    · subst hc
      have hsize : '\n'.utf8Size = 1 := rfl
      rw [if_pos rfl, ih, hsize, bytesOf_newline, List.findIdxs_cons, if_pos (by decide)]
    · have hnone : (String.utf8EncodeChar c).findIdxs (· == (10 : UInt8)) (offset + 1) = [] := by
        refine List.findIdxs_eq_nil_iff.mpr fun byte hbyte => ?_
        exact beq_eq_false_iff_ne.mpr fun heq => newline_notMem_bytes hc (heq ▸ hbyte)
      rw [if_neg hc, ih, bytesOf_cons, List.findIdxs_append, hnone, List.nil_append,
        String.length_utf8EncodeChar, Nat.add_right_comm]

theorem countP_newline (text : List Char) :
    (bytesOf text).countP (· == 10) = text.count '\n' := by
  induction text with
  | nil => rfl
  | cons c rest ih =>
    by_cases hc : c = '\n'
    · subst hc
      rw [bytesOf_newline, List.countP_cons_of_pos (by decide), ih, List.count_cons_self]
    · have hnone : (String.utf8EncodeChar c).countP (· == (10 : UInt8)) = 0 := by
        refine List.countP_eq_zero.mpr fun byte hbyte heq => ?_
        exact newline_notMem_bytes hc (beq_iff_eq.mp heq ▸ hbyte)
      rw [bytesOf_cons, List.countP_append, hnone, Nat.zero_add, ih, List.count_cons_of_ne hc]

/-- A part of a text keeps its newlines where they are. -/
theorem TextPart.newlineMask_shown (part : TextPart) :
    newlineMask (bytesOf part.shown) = newlineMask (bytesOf part.chars) := by
  rw [part.bytesOf_shown, newlineMask, newlineMask, List.map_map]
  refine List.map_congr_left fun byte _ => ?_
  cases part.isBlock with
  | false => rfl
  | true =>
    change (blankedByte byte == 10) = (byte == 10)
    unfold blankedByte
    split
    case isTrue heq => rw [heq]
    case isFalse hne => rw [beq_eq_false_iff_ne.mpr hne]; rfl

/-- Blanking comments keeps the newlines of a text where they are. -/
theorem newlineMask_strip (text : List Char) :
    newlineMask (bytesOf (stripBlockComments text).1) = newlineMask (bytesOf text) := by
  obtain ⟨parts, hparts⟩ := exists_parts text
  have htext := hparts.text_eq
  rw [List.append_nil] at htext
  rw [hparts.shown_eq, htext]
  clear hparts htext
  induction parts with
  | nil => rfl
  | cons part others ih =>
    rw [List.flatMap_cons, List.flatMap_cons, bytesOf_append, bytesOf_append, newlineMask,
      newlineMask, List.map_append, List.map_append]
    exact congrArg₂ (· ++ ·) part.newlineMask_shown ih

theorem length_of_newlineMask {first second : List UInt8}
    (h : newlineMask second = newlineMask first) : second.length = first.length := by
  have hlength := congrArg List.length h
  rwa [newlineMask, newlineMask, List.length_map, List.length_map] at hlength

theorem newline_of_newlineMask {first second : List UInt8}
    (h : newlineMask second = newlineMask first) (index : Nat) :
    second[index]? = some 10 ↔ first[index]? = some 10 := by
  have hindex := congrArg (·[index]? = some true) h
  simp only [newlineMask, List.getElem?_map, Option.map_eq_some_iff, beq_iff_eq, eq_iff_iff,
    exists_eq_right] at hindex
  exact hindex

/-! ## Lines of bytes -/

/-- The line that an offset belongs to starts at `start`: just after the last newline in front of
the offset, or at the start of the text where there is none. -/
def StartsLine (bytes : List UInt8) (offset start : Nat) : Prop :=
  start ≤ offset ∧ (start = 0 ∨ bytes[start - 1]? = some 10) ∧
    ∀ index, start ≤ index → index < offset → bytes[index]? ≠ some 10

/-- A line is made of the bytes from `start` on and up to `stop`, without the newline that ends
it. -/
structure IsLine (bytes : List UInt8) (start stop : Nat) : Prop where
  startsLine : StartsLine bytes stop start
  stop_le : stop ≤ bytes.length
  ends : stop = bytes.length ∨ bytes[stop]? = some 10

section Lines

variable {bytes : List UInt8} {offset start other stop : Nat}

/-- The line of an offset starts at one place. -/
theorem StartsLine.unique (h : StartsLine bytes offset start) (h' : StartsLine bytes offset other) :
    other = start := by
  obtain ⟨hle, hstart, hwithin⟩ := h
  obtain ⟨hle', hstart', hwithin'⟩ := h'
  rcases Nat.lt_trichotomy other start with hlt | heq | hgt
  · exact absurd (hstart.resolve_left (by omega)) (hwithin' (start - 1) (by omega) (by omega))
  · exact heq
  · exact absurd (hstart'.resolve_left (by omega)) (hwithin (other - 1) (by omega) (by omega))

/-- An offset within a line belongs to it. -/
theorem StartsLine.within (h : StartsLine bytes stop start) (hstart : start ≤ offset)
    (hstop : offset ≤ stop) : StartsLine bytes offset start :=
  ⟨hstart, h.2.1, fun index hlow hhigh => h.2.2 index hlow (Nat.lt_of_lt_of_le hhigh hstop)⟩

/-- No newline stands between the start of a line and an offset in it. -/
theorem StartsLine.count_eq (h : StartsLine bytes offset start) :
    (bytes.take offset).count 10 = (bytes.take start).count 10 := by
  have hsplit :
      bytes.take offset = bytes.take start ++ (bytes.drop start).take (offset - start) := by
    rw [← List.take_add, Nat.add_sub_cancel' h.1]
  have hnone : ((bytes.drop start).take (offset - start)).count 10 = 0 := by
    refine List.count_eq_zero.mpr fun hmem => ?_
    obtain ⟨index, hindex, hbyte⟩ := List.getElem_of_mem hmem
    rw [List.length_take] at hindex
    rw [List.getElem_take, List.getElem_drop] at hbyte
    exact h.2.2 (start + index) (Nat.le_add_right _ _) (by omega)
      (List.getElem?_eq_some_iff.mpr ⟨_, hbyte⟩)
  rw [hsplit, List.count_append, hnone, Nat.add_zero]

end Lines

/-- The newlines in front of an offset. -/
theorem filter_findIdxs (bytes : List UInt8) (offset : Nat) :
    (bytes.findIdxs (· == 10) 1).filter (· ≤ offset) =
      (bytes.take offset).findIdxs (· == 10) 1 := by
  have hfront : ∀ place ∈ (bytes.take offset).findIdxs (· == 10) 1, place ≤ offset := by
    intro place hplace
    have hlt := List.lt_add_of_mem_findIdxs place hplace
    rw [List.length_take] at hlt
    omega
  have hback : ∀ place ∈ (bytes.drop offset).findIdxs (· == 10) (1 + (bytes.take offset).length),
      ¬place ≤ offset := by
    intro place hplace
    have hge := List.ge_of_mem_findIdxs place hplace
    have hlt := List.lt_add_of_mem_findIdxs place hplace
    rw [List.length_take] at hge
    rw [List.length_take, List.length_drop] at hlt
    omega
  conv_lhs => rw [← List.take_append_drop offset bytes, List.findIdxs_append]
  rw [List.filter_append, List.filter_eq_self.mpr, List.filter_eq_nil_iff.mpr, List.append_nil]
  · exact fun place hplace => mt of_decide_eq_true (hback place hplace)
  · exact fun place hplace => decide_eq_true (hfront place hplace)

/-- The places up to an offset at which lines start. -/
theorem mem_lineStarts {bytes : List UInt8} {offset place : Nat} :
    place ∈ 0 :: (bytes.take offset).findIdxs (· == 10) 1 ↔
      place ≤ offset ∧ (place = 0 ∨ bytes[place - 1]? = some 10) := by
  rw [List.mem_cons, List.mem_findIdxs_iff_getElem_sub_pos]
  constructor
  · rintro (rfl | ⟨hpos, hindex, hbyte⟩)
    · exact ⟨Nat.zero_le _, .inl rfl⟩
    · rw [List.length_take] at hindex
      rw [List.getElem_take, beq_iff_eq] at hbyte
      exact ⟨by omega, .inr (List.getElem?_eq_some_iff.mpr ⟨_, hbyte⟩)⟩
  · rintro ⟨hle, rfl | hbyte⟩
    · exact .inl rfl
    · obtain ⟨hindex, hbyte⟩ := List.getElem?_eq_some_iff.mp hbyte
      by_cases hzero : place = 0
      · exact .inl hzero
      · refine .inr ⟨Nat.pos_of_ne_zero hzero, ?_, ?_⟩
        · rw [List.length_take]
          omega
        · rw [List.getElem_take, hbyte]
          rfl

/-- The position of an offset: its line is counted by the newlines in front of it, and its column
from the start of that line. -/
theorem lineColumn_eq (file : SourceFile) (offset : Nat) :
    ∃ start, StartsLine (utf8Bytes file.text) offset start ∧
      file.lineColumn offset =
        (1 + ((utf8Bytes file.text).take offset).count 10, offset - start + 1) := by
  have hstarted : file.lineStarts.filter (· ≤ offset) =
      0 :: ((utf8Bytes file.text).take offset).findIdxs (· == 10) 1 := by
    rw [SourceFile.lineStarts, offsetsAfterNewlines_eq, ← utf8Bytes_eq, List.filter_cons,
      if_pos (decide_eq_true (Nat.zero_le offset)), filter_findIdxs]
  generalize utf8Bytes file.text = bytes at hstarted ⊢
  have hsorted : (0 :: (bytes.take offset).findIdxs (· == 10) 1).Pairwise (· < ·) :=
    List.pairwise_cons.mpr ⟨fun place hplace => List.ge_of_mem_findIdxs place hplace,
      List.pairwise_findIdxs⟩
  have hsome := List.cons_ne_nil 0 ((bytes.take offset).findIdxs (· == 10) 1)
  have hmem := List.getLast_mem hsome
  have hlast (place : Nat) (hplace : place ∈ 0 :: (bytes.take offset).findIdxs (· == 10) 1) :
      place ≤ List.getLast _ hsome := (hsorted.imp Nat.le_of_lt).rel_getLast hplace
  refine ⟨(file.lineStarts.filter (· ≤ offset)).getLastD 0, ?_, ?_⟩
  · rw [hstarted]
    change StartsLine bytes offset (List.getLast _ hsome)
    generalize List.getLast _ hsome = start at hmem hlast
    obtain ⟨hle, hstart⟩ := mem_lineStarts.mp hmem
    refine ⟨hle, hstart, fun index hlow hhigh hbyte => ?_⟩
    have hafter := hlast (index + 1) (mem_lineStarts.mpr ⟨hhigh, .inr hbyte⟩)
    omega
  · rw [SourceFile.lineColumn, hstarted, List.length_cons, List.length_findIdxs,
      List.count_eq_countP, Nat.add_comm]


/-! ## Cutting a text at its newlines -/

theorem newline_notMem_bytesOf {text : List Char} (h : '\n' ∉ text) : 10 ∉ bytesOf text := by
  intro hmem
  obtain ⟨c, hc, hbyte⟩ := List.mem_flatMap.mp hmem
  exact newline_notMem_bytes (fun heq => h (heq ▸ hc)) hbyte

/-- A line of a text stands between newlines, or at the start or end of the text. -/
theorem exists_of_splitLines {text line : List Char} {before after : List (List Char)}
    (h : splitLines text = before ++ line :: after) :
    ∃ front back, text = front ++ line ++ back ∧
      byteLength front = (before.map fun line => byteLength line + 1).sum ∧
      front.count '\n' = before.length ∧ (front = [] ∨ ∃ start, front = start ++ ['\n']) ∧
      '\n' ∉ line ∧ (back = [] ∨ ∃ rest, back = '\n' :: rest) := by
  induction text generalizing before line with
  | nil =>
    obtain ⟨rfl, hline⟩ | ⟨_, _, hnil⟩ := List.append_eq_cons_iff.mp h.symm
    · cases hline
      exact ⟨[], [], rfl, rfl, rfl, .inl rfl, List.not_mem_nil, .inl rfl⟩
    · simp at hnil
  | cons c rest ih =>
    rw [splitLines] at h
    split at h
    case isTrue hc =>
      subst hc
      cases before with
      | nil =>
        obtain ⟨rfl, -⟩ := List.cons.inj h
        exact ⟨[], '\n' :: rest, rfl, rfl, rfl, .inl rfl, List.not_mem_nil, .inr ⟨rest, rfl⟩⟩
      | cons first others =>
        obtain ⟨rfl, hrest⟩ := List.cons.inj h
        obtain ⟨front, back, rfl, hbytes, hcount, hfront, hline, hback⟩ := ih hrest
        refine ⟨'\n' :: front, back, rfl, ?_, ?_, .inr ?_, hline, hback⟩
        · rw [byteLength_cons, hbytes, List.map_cons, List.sum_cons]
          rfl
        · rw [List.count_cons_self, hcount, List.length_cons]
        · rcases hfront with rfl | ⟨start, rfl⟩
          · exact ⟨[], rfl⟩
          · exact ⟨'\n' :: start, rfl⟩
    case isFalse hc =>
      obtain ⟨first, others, hlines⟩ := List.exists_cons_of_ne_nil (splitLines_ne_nil rest)
      rw [hlines] at h ih
      cases before with
      | nil =>
        obtain ⟨rfl, rfl⟩ := List.cons.inj h
        obtain ⟨front, back, rfl, hbytes, -, -, hline, hback⟩ := @ih first [] rfl
        obtain rfl : front = [] := by
          by_contra hsome
          exact (byteLength_pos hsome).ne' hbytes
        exact ⟨[], back, rfl, rfl, rfl, .inl rfl,
          List.not_mem_cons_of_ne_of_not_mem (Ne.symm hc) hline, hback⟩
      | cons head tail =>
        obtain ⟨rfl, hrest⟩ := List.cons.inj h
        obtain ⟨front, back, rfl, hbytes, hcount, hfront, hline, hback⟩ :=
          @ih line (first :: tail) (congrArg (first :: ·) hrest)
        rw [List.map_cons, List.sum_cons] at hbytes
        refine ⟨c :: front, back, rfl, ?_, ?_, .inr ?_, hline, hback⟩
        · rw [byteLength_cons, hbytes, List.map_cons, List.sum_cons, byteLength_cons]
          omega
        · rw [List.count_cons_of_ne hc, hcount, List.length_cons, List.length_cons]
        · rcases hfront with rfl | ⟨start, rfl⟩
          · rw [byteLength, List.foldl_nil] at hbytes
            omega
          · exact ⟨c :: start, rfl⟩

/-- Bytes between newlines are a line. -/
theorem isLine_append {front line back : List UInt8}
    (hfront : front = [] ∨ ∃ start, front = start ++ [10]) (hline : 10 ∉ line)
    (hback : back = [] ∨ ∃ rest, back = 10 :: rest) :
    IsLine (front ++ line ++ back) front.length (front.length + line.length) := by
  have hstop : (front ++ line).length = front.length + line.length := List.length_append
  refine ⟨⟨Nat.le_add_right _ _, ?_, fun index hlow hhigh hbyte => ?_⟩, ?_, ?_⟩
  · refine hfront.imp (congrArg List.length) ?_
    rintro ⟨start, rfl⟩
    rw [List.length_append, List.length_singleton, Nat.add_sub_cancel, List.append_assoc,
      List.append_assoc, List.getElem?_append_right (Nat.le_refl _), Nat.sub_self]
    rfl
  · rw [List.getElem?_append_left (hstop ▸ hhigh), List.getElem?_append_right hlow] at hbyte
    exact hline (List.mem_of_getElem? hbyte)
  · rw [List.length_append, hstop]
    exact Nat.le_add_right _ _
  · rw [← hstop]
    refine hback.imp ?_ ?_
    · rintro rfl
      rw [List.append_nil]
    · rintro ⟨rest, rfl⟩
      rw [List.getElem?_append_right (Nat.le_refl _), Nat.sub_self]
      rfl

/-- The bytes of a line are a line of the bytes. -/
theorem isLine_of_splitLines {text line : List Char} {before after : List (List Char)}
    (h : splitLines text = before ++ line :: after) {start : Nat}
    (hstart : start = (before.map fun line => byteLength line + 1).sum) :
    IsLine (bytesOf text) start (start + byteLength line) ∧
      ((bytesOf text).take start).count 10 = before.length := by
  obtain ⟨front, back, rfl, hbytes, hcount, hfront, hline, hback⟩ := exists_of_splitLines h
  rw [hstart, ← hbytes, ← hcount, ← bytesOf_length, ← bytesOf_length, bytesOf_append,
    bytesOf_append]
  constructor
  · refine isLine_append (hfront.imp ?_ ?_) (newline_notMem_bytesOf hline) (hback.imp ?_ ?_)
    · rintro rfl
      rfl
    · rintro ⟨start, rfl⟩
      exact ⟨bytesOf start, bytesOf_append start ['\n']⟩
    · rintro rfl
      rfl
    · rintro ⟨rest, rfl⟩
      exact ⟨bytesOf rest, rfl⟩
  · rw [List.append_assoc, List.take_left, List.count_eq_countP, countP_newline]

section Mask

variable {first second : List UInt8} (h : newlineMask second = newlineMask first)
include h

/-- Lines are made by newlines alone. -/
theorem IsLine.of_newlineMask {start stop : Nat} (hline : IsLine first start stop) :
    IsLine second start stop := by
  obtain ⟨⟨hle, hstart, hwithin⟩, hstop, hends⟩ := hline
  refine ⟨⟨hle, hstart.imp_right (newline_of_newlineMask h _).mpr,
    fun index hlow hhigh => ?_⟩, ?_, ?_⟩
  · exact hwithin index hlow hhigh ∘ (newline_of_newlineMask h index).mp
  · rwa [length_of_newlineMask h]
  · rw [length_of_newlineMask h]
    exact hends.imp_right (newline_of_newlineMask h _).mpr

theorem count_of_newlineMask (offset : Nat) :
    (second.take offset).count 10 = (first.take offset).count 10 := by
  have hcount (bytes : List UInt8) :
      (bytes.take offset).count 10 = ((newlineMask bytes).take offset).countP id := by
    rw [newlineMask, ← List.map_take, List.countP_map]
    rfl
  rw [hcount, hcount, h]

end Mask

/-! ## The parts of a line -/

/-- The places that a line speaks of. -/
def LineBody.spans : LineBody → List Span
  | .equate name _ => [name.span]
  | .statements label row =>
    label.toList.map Spanned.span ++ row.flatMap fun statement =>
      [statement.span, statement.name.span]

/-- The label of a line. -/
def LineBody.label? : LineBody → Option (Spanned String)
  | .equate _ _ => none
  | .statements label _ => label

def Line.spans (line : Line) : List Span := line.location.span :: line.body.spans

/-- A span lies within the bytes from `low` up to `high` of a source. -/
structure Span.Within (source low high : Nat) (span : Span) : Prop where
  source_eq : span.source = source
  low_le : low ≤ span.start
  start_le : span.start ≤ span.stop
  le_high : span.stop ≤ high

section Parts

variable {source low high : Nat}

/-- Tokens one behind the other, all within some bytes of a source. -/
def RowWithin (source low high : Nat) (tokens : List Token) : Prop :=
  (∀ token ∈ tokens, token.span.Within source low high) ∧
    tokens.Pairwise fun first second => first.span.stop ≤ second.span.start

theorem RowWithin.sublist {tokens others : List Token} (h : RowWithin source low high others)
    (hsub : tokens.Sublist others) : RowWithin source low high tokens :=
  ⟨fun token htoken => h.1 token (hsub.mem htoken), h.2.sublist hsub⟩

/-- A statement reaches from its name to its last token. -/
theorem Statement.over_within {token : Token} {behind : List Token} {ident : String}
    {operands : List Expr} {ellipsis : Bool} (h : RowWithin source low high (token :: behind)) :
    (Statement.over token ident behind operands ellipsis).span.Within source low high ∧
      (Statement.over token ident behind operands ellipsis).name.span.Within source low high := by
  obtain ⟨⟨hsource, hlow, hstart, hhigh⟩, hbehind⟩ := List.forall_mem_cons.mp h.1
  have hordered := (List.pairwise_cons.mp h.2).1
  refine ⟨?_, hsource, hlow, hstart, hhigh⟩
  cases hlast : behind.getLast? with
  | none =>
    rw [Statement.over, hlast]
    exact ⟨hsource, hlow, hstart, hhigh⟩
  | some last =>
    have hmem := List.mem_of_getLast? hlast
    obtain ⟨-, -, hends, hle⟩ := hbehind last hmem
    rw [Statement.over, hlast]
    exact ⟨hsource, hlow, hstart.trans ((hordered last hmem).trans hends), hle⟩

theorem StatementTree.within {tokens : List Token} (tree : StatementTree tokens)
    (h : RowWithin source low high tokens) :
    tree.statement.span.Within source low high ∧
      tree.statement.name.span.Within source low high := by
  cases tree with
  | bare | ellipsis | operands | openEnded => exact Statement.over_within h

theorem StatementsTree.within {tokens : List Token} (tree : StatementsTree tokens)
    (h : RowWithin source low high tokens) :
    ∀ statement ∈ tree.statements, statement.span.Within source low high ∧
      statement.name.span.Within source low high := by
  induction tree with
  | one statement => exact List.forall_mem_singleton.mpr (statement.within h)
  | @more colon front back statement divides rest ih =>
    have hback : back.Sublist (front ++ colon :: back) :=
      (List.sublist_cons_self colon back).trans (List.sublist_append_right front _)
    exact List.forall_mem_cons.mpr
      ⟨statement.within (h.sublist (List.sublist_append_left _ _)), ih (h.sublist hback)⟩

/-- The label and the statements of a line keep the places of its statements. -/
theorem LineBody.ofStatements_within {statements : List Statement}
    (h : ∀ statement ∈ statements, statement.span.Within source low high ∧
      statement.name.span.Within source low high) (offset : Nat) :
    ∀ span ∈ (LineBody.ofStatements offset statements).spans, span.Within source low high := by
  have hrow (row : List Statement) (hrow : row ⊆ statements) :
      ∀ span ∈ row.flatMap fun statement => [statement.span, statement.name.span],
        span.Within source low high := by
    intro span hspan
    obtain ⟨statement, hstatement, hspan⟩ := List.mem_flatMap.mp hspan
    obtain ⟨hwhole, hname⟩ := h statement (hrow hstatement)
    rcases List.mem_pair.mp hspan with rfl | rfl
    · exact hwhole
    · exact hname
  cases statements with
  | nil => nofun
  | cons first rest =>
    rw [LineBody.ofStatements]
    split
    · exact List.forall_mem_cons.mpr
        ⟨(h first List.mem_cons_self).2, hrow rest (List.subset_cons_self first rest)⟩
    · exact hrow _ (List.Subset.refl _)

/-- All that a line speaks of is within the bytes of its tokens. -/
theorem LineTree.within {tokens : List Token} (tree : LineTree tokens)
    (h : RowWithin source low high tokens) (offset : Nat) :
    ∀ span ∈ (tree.body offset).spans, span.Within source low high := by
  cases tree with
  | equate named assigns value =>
    exact List.forall_mem_singleton.mpr (h.1 _ List.mem_cons_self)
  | statements list => exact LineBody.ofStatements_within (list.within h) offset
  | trailing list ends =>
    exact LineBody.ofStatements_within
      (list.within (h.sublist (List.sublist_append_left _ _))) offset

/-- A label stands in the first column. -/
theorem LineTree.label_start {tokens : List Token} (tree : LineTree tokens) (offset : Nat) :
    ∀ label ∈ (tree.body offset).label?, label.span.start = offset := by
  have hstatements (statements : List Statement) :
      ∀ label ∈ (LineBody.ofStatements offset statements).label?, label.span.start = offset := by
    intro label hlabel
    cases statements with
    | nil => cases hlabel
    | cons first rest =>
      rw [LineBody.ofStatements] at hlabel
      split at hlabel
      case isTrue hstart =>
        cases hlabel
        exact hstart
      case isFalse => cases hlabel
  cases tree with
  | equate =>
    intro label hlabel
    cases hlabel
  | statements list | trailing list => exact hstatements list.statements

end Parts

/-- The tokens of a line stand one behind the other within it. -/
theorem lexLine_within {source offset : Nat} {text : List Char} {tokens : List Token}
    (h : lexLine source offset text = .ok tokens) :
    RowWithin source offset (offset + byteLength text) tokens := by
  have hcover := LineCover.of_cutInto (cutInto_cutLine text) (lexLine_eq_ok.mp h)
  refine ⟨fun token htoken => ?_, hcover.ordered⟩
  obtain ⟨hlt, front, back, htext, hspan⟩ := hcover.slices token htoken
  have hstop : byteLength (front ++ token.text.toList) ≤ byteLength text := by
    rw [htext, byteLength_append _ back]
    exact Nat.le_add_right _ _
  rw [hspan] at hlt ⊢
  exact ⟨rfl, Nat.le_add_right _ _, hlt.le, Nat.add_le_add_left hstop offset⟩

/-- What a line speaks of stands within it, and its label at its start. -/
theorem readLine_within {location : Location} {text : List Char} {line : Line}
    (h : readLine location text = .ok (some line)) :
    (∀ span ∈ line.body.spans, span.Within location.span.source location.span.start
        (location.span.start + byteLength text)) ∧
      ∀ label ∈ line.body.label?, label.span.start = location.span.start := by
  obtain ⟨tokens, hlex, -⟩ := bind_eq_ok.mp h
  cases hlast : tokens.getLast? with
  | none =>
    obtain rfl := List.getLast?_eq_none_iff.mp hlast
    cases (readLine_blank hlex).symm.trans h
  | some last =>
    obtain ⟨hlabel, body, hbody, hline⟩ := (readLine_eq_ok hlex hlast).mp h
    obtain ⟨tree, -, rfl⟩ := readBody_finds hbody hlabel
    cases hline
    exact ⟨tree.within (lexLine_within hlex) _, tree.label_start _⟩

theorem byteLength_trimEnd (text : List Char) : byteLength (trimEnd text) ≤ byteLength text := by
  have hsplit : text = trimEnd text ++ (text.reverse.takeWhile isBlank).reverse := by
    rw [trimEnd, ← List.reverse_append, List.takeWhile_append_dropWhile, List.reverse_reverse]
  conv_rhs => rw [hsplit, byteLength_append]
  exact Nat.le_add_right _ _

/-- A line is read from one of the texts, behind the bytes of those before it. -/
theorem exists_of_mem_readLines {source : Nat} {file : String} {includedFrom : List IncludeSite}
    {number offset : Nat} {texts : List (List Char)}
    {result : Except (List Diagnostic) (Option Line)}
    (h : result ∈ readLines source file includedFrom number offset texts) :
    ∃ before text after start, texts = before ++ text :: after ∧
      start = offset + (before.map fun line => byteLength line + 1).sum ∧
      result = readLine ⟨file, number + before.length,
        ⟨source, start, start + byteLength (trimEnd text)⟩, includedFrom⟩ text := by
  induction texts generalizing number offset with
  | nil => cases h
  | cons first rest ih =>
    rcases List.mem_cons.mp h with rfl | hrest
    · exact ⟨[], first, rest, offset, rfl, rfl, rfl⟩
    · obtain ⟨before, text, after, start, rfl, rfl, rfl⟩ := ih hrest
      refine ⟨first :: before, text, after, _, rfl, rfl, ?_⟩
      rw [List.map_cons, List.sum_cons, List.length_cons, ← Nat.add_assoc offset,
        ← Nat.add_assoc offset, Nat.add_right_comm number 1, Nat.add_assoc number]

/-- Positions agree. An offset of a text is on the line after the newlines in front of it, as far
behind the last of them as its column says. Every line that is read stands, with its label, names
and statements, within one line of the text as it was written, the one of its number, and its label
stands in the first column. -/
theorem readSource_positions (text : String) :
    (∀ (name : String) (offset : Nat), ∃ start, StartsLine (utf8Bytes text) offset start ∧
      SourceFile.lineColumn ⟨name, text⟩ offset =
        (1 + ((utf8Bytes text).take offset).count 10, offset - start + 1)) ∧
    ∀ source file includedFrom read, readSource source file text includedFrom = .ok read →
      ∀ line ∈ read.lines, ∃ start stop, IsLine (utf8Bytes text) start stop ∧
        (∀ span ∈ line.spans, span.Within source start stop ∧
          (SourceFile.lineColumn ⟨file, text⟩ span.start).1 = line.location.line) ∧
        ∀ label ∈ line.body.label?,
          SourceFile.lineColumn ⟨file, text⟩ label.span.start = (line.location.line, 1) := by
  refine ⟨fun name offset => lineColumn_eq ⟨name, text⟩ offset, ?_⟩
  intro source file includedFrom read hread line hline
  obtain ⟨found, hfound, hlines⟩ := readSource_lines.mp ⟨read, hread, rfl⟩
  rw [← hlines, List.mem_filterMap] at hline
  obtain ⟨result, hresult, rfl⟩ := hline
  have hmem : .ok (some line) ∈ readLines source file includedFrom 1 0 (codeLines text) := by
    rw [hfound]
    exact List.mem_map_of_mem hresult
  obtain ⟨before, chars, after, start, hsplit, hstart, hlineRead⟩ := exists_of_mem_readLines hmem
  rw [Nat.zero_add] at hstart
  have hmask := newlineMask_strip text.toList
  obtain ⟨hbytes, hcount⟩ := isLine_of_splitLines hsplit hstart
  have hwhole := hbytes.of_newlineMask hmask.symm
  rw [← count_of_newlineMask hmask.symm, ← utf8Bytes_eq] at hcount
  rw [← utf8Bytes_eq] at hwhole
  have hlocation := readLine_location hlineRead.symm
  obtain ⟨hspans, hlabel⟩ := readLine_within hlineRead.symm
  -- Whatever starts within the line has its number.
  have hposition (offset : Nat) (hlow : start ≤ offset)
      (hhigh : offset ≤ start + byteLength chars) :
      SourceFile.lineColumn ⟨file, text⟩ offset = (line.location.line, offset - start + 1) := by
    obtain ⟨place, hplace, hcolumn⟩ := lineColumn_eq ⟨file, text⟩ offset
    have hwithin := hwhole.startsLine.within hlow hhigh
    rw [hcolumn, hwithin.count_eq, hcount, hplace.unique hwithin, hlocation]
  have hplaced (span : Span) (hspan : span.Within source start (start + byteLength chars)) :
      span.Within source start (start + byteLength chars) ∧
        (SourceFile.lineColumn ⟨file, text⟩ span.start).1 = line.location.line := by
    have hstop := hspan.start_le.trans hspan.le_high
    exact ⟨hspan, congrArg Prod.fst (hposition span.start hspan.low_le hstop)⟩
  refine ⟨start, start + byteLength chars, hwhole, List.forall_mem_cons.mpr ⟨?_, ?_⟩, ?_⟩
  · have hspan : line.location.span = ⟨source, start, start + byteLength (trimEnd chars)⟩ := by
      rw [hlocation]
    have htrimmed := Nat.add_le_add_left (byteLength_trimEnd chars) start
    rw [hspan]
    exact hplaced _ ⟨rfl, Nat.le_refl _, Nat.le_add_right _ _, htrimmed⟩
  · exact fun span hspan => hplaced span (hspans span hspan)
  · intro label hmem
    rw [hlabel label hmem, hposition start (Nat.le_refl _) (Nat.le_add_right _ _), Nat.sub_self]

/-- A comment over two lines, characters of two bytes, an equate and a label. -/
def commentedText : String := " /* é\n*/ k = 1 ; é\r\n\nlab: nop"

/-- The label behind the comment is on the fourth line of the text. -/
theorem readSource_positions_commented :
    SourceFile.lineColumn ⟨"a.s", commentedText⟩ 23 = (4, 1) ∧
    ∃ read line, readSource 0 "a.s" commentedText [] = .ok read ∧ line ∈ read.lines ∧
      line.location.line = 4 ∧ line.body.label? = some ⟨"lab", ⟨0, 23, 26⟩⟩ ∧
      ∃ start stop, IsLine (utf8Bytes commentedText) start stop ∧
        (∀ span ∈ line.spans, span.Within 0 start stop ∧
          (SourceFile.lineColumn ⟨"a.s", commentedText⟩ span.start).1 = line.location.line) ∧
        ∀ label ∈ line.body.label?,
          SourceFile.lineColumn ⟨"a.s", commentedText⟩ label.span.start =
            (line.location.line, 1) := by
  obtain ⟨read, hread, hlast⟩ : ∃ read, readSource 0 "a.s" commentedText [] = .ok read ∧
      (read.lines.getLast?.any fun line =>
        line.location.line == 4 &&
          line.body.label?.any fun label =>
            label.node == "lab" && label.span == ⟨0, 23, 26⟩) = true :=
    exists_ok_of_any _ (by decide +kernel)
  obtain ⟨line, hline, htest⟩ := (Option.any_eq_true _ _).mp hlast
  have hmem := List.mem_of_getLast? hline
  rw [Bool.and_eq_true, beq_iff_eq, Option.any_eq_true] at htest
  obtain ⟨hnumber, ⟨name, span⟩, hlabel, hspan⟩ := htest
  rw [Bool.and_eq_true, beq_iff_eq, beq_iff_eq] at hspan
  obtain ⟨rfl, rfl⟩ := hspan
  exact ⟨by decide +kernel, read, line, hread, hmem, hnumber, hlabel,
    (readSource_positions commentedText).2 0 "a.s" [] read hread line hmem⟩

end Asm65816
