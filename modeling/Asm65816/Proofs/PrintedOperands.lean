import Asm65816.Proofs.ExactValues
import Asm65816.Proofs.SpelledLines

/-!
# Operands that are printed

The text of an operand that was read spells the tokens it was derived from, and so is read as the
same operand. The text has blanks around binary operators and none behind prefixes, and it has the
brackets of the operand and no others: what is grouped follows from the derivation alone. Only
quoted texts with escapes and byte selectors in a row are read as something else.
-/

namespace Asm65816

/-! ## Misprints -/

/-- Prefixes whose spellings make another sign when they are put together. -/
def UnaryOp.joins : UnaryOp → UnaryOp → Bool
  | lowByte, lowByte | lowByte, highByte | highByte, highByte => true
  | _, _ => false

/-- Whether the text of an expression is read as something else: a quoted text is written without
escapes, and nothing stands between a prefix and the next one. -/
def Expr.misprints : Expr → Bool
  | .text content _ => content.toList.any fun c => c == '"' || c == '\\'
  | .unary op (.unary inner _) => op.joins inner
  | _ => false

/-- No part of an expression is a misprint. -/
def Expr.Prints (e : Expr) : Prop := ∀ part ∈ e.parts, part.misprints = false

namespace Expr.Prints

variable {e : Expr}

theorem part (h : e.Prints) {part : Expr} (hpart : part ∈ e.parts) : part.Prints :=
  fun inner hinner => h inner (parts_subset hpart hinner)

theorem of_unary {op : UnaryOp} (h : (unary op e).Prints) : e.Prints :=
  h.part (List.mem_cons_of_mem _ e.self_mem_parts)

theorem of_immediate (h : (immediate e).Prints) : e.Prints :=
  h.part (List.mem_cons_of_mem _ e.self_mem_parts)

theorem of_binary {op : BinaryOp} {l r : Expr} (h : (binary op l r).Prints) :
    l.Prints ∧ r.Prints :=
  ⟨h.part (List.mem_cons_of_mem _ (List.mem_append_left _ l.self_mem_parts)),
    h.part (List.mem_cons_of_mem _ (List.mem_append_right _ r.self_mem_parts))⟩

theorem of_group {items : List Expr} {long : Bool} (h : (group items long).Prints) {item : Expr}
    (hitem : item ∈ items) : item.Prints :=
  h.part (List.mem_cons_of_mem _ (mem_partsAll.mpr ⟨item, hitem, item.self_mem_parts⟩))

end Expr.Prints

/-! ## Signs in front of operands -/

namespace Punct

/-- The signs that are never part of a longer piece. -/
def separators : List Punct := [leftParen, rightParen, leftBracket, rightBracket, comma, hash]

theorem goesOnWith_of_separator {sign : Punct} (h : sign ∈ separators) (c : Char) :
    sign.goesOnWith c = false := by
  simp only [separators, List.mem_cons, List.not_mem_nil, or_false] at h
  rcases h with rfl | rfl | rfl | rfl | rfl | rfl
  all_goals rfl

end Punct

/-- The sign of a binary operator is spelled as the operator. -/
theorem Level.spelling_of_binary {level : Level} {sign : Punct} {op : BinaryOp}
    (h : level.binary? sign = some op) : sign.spelling = op.symbol ∧ sign ≠ .ellipsis := by
  cases level <;> cases sign <;> first | (cases h; exact ⟨rfl, by decide⟩) | cases h

/-- The sign of a prefix is spelled as the prefix. -/
theorem Level.spelling_of_unary {level : Level} {sign : Punct} {op : UnaryOp}
    (h : level.unary? sign = some op) : sign.spelling = op.symbol ∧ sign ≠ .ellipsis := by
  cases level <;> cases sign <;> first | (cases h; exact ⟨rfl, by decide⟩) | cases h

/-! ## How operands start -/

/-- A token that is no sign starts with a character of the class that reads it. -/
theorem TokenKind.Written.startsWith {token : TokenKind} (h : token.Written)
    (hsign : ∀ sign, token ≠ .punct sign) :
    ∃ c others, ∃ kind : TokenClass, token.chars = c :: others ∧ kind.startsWith c = true ∧
      kind ∉ [.blank, .comment, .punct] ∧
      ∀ ident, token = .name ident → kind ∈ [.name, .localName, .argument] := by
  have hpiece : nextPiece (token.chars ++ []) = (token.chars.length, .token token) :=
    nextPiece_chars h (hsign _) nofun
  have hpos := nextPiece_pos (token.chars ++ [])
  obtain ⟨kind, hreach, hread⟩ := nextPiece_token (congrArg Prod.snd hpiece)
  rw [hpiece] at hpos
  rw [List.append_nil] at hreach hread
  obtain ⟨c, others, hchars⟩ := List.exists_cons_of_length_pos hpos
  refine ⟨c, others, kind, hchars, ?_, ?_, ?_⟩
  · by_contra hstarts
    rw [hchars, TokenClass.reach_eq_zero others (Bool.eq_false_iff.mpr hstarts)] at hreach
    cases hreach
  · intro hmem
    simp only [List.mem_cons, List.not_mem_nil, or_false] at hmem
    rcases hmem with rfl | rfl | rfl
    · cases hread
    · cases hread
    · unfold TokenClass.read at hread
      dsimp only at hread
      split at hread
      · exact hsign _ (Reading.token.inj hread).symm
      · cases hread
  · rintro ident rfl
    rcases TokenClass.read_cases hread with ⟨_, h⟩ | ⟨_, h⟩ | ⟨-, h⟩ | ⟨-, h⟩ | ⟨hclass, -⟩
    · cases h
    · cases h
    · cases h
    · cases h
    · simpa using hclass

/-- The characters that neither numbers, nor quoted texts, nor names start with. -/
def breaks : List Char := [' ', '\t', '\r', '\x0c', '=', '<', '>']

theorem TokenKind.Written.not_mem_breaks {token : TokenKind} (h : token.Written)
    (hsign : ∀ sign, token ≠ .punct sign) :
    ∃ c others, token.chars = c :: others ∧ c ∉ breaks := by
  obtain ⟨c, others, kind, hchars, hstarts, hkind, -⟩ := h.startsWith hsign
  have hall : ∀ kind ∈ TokenClass.all, kind ∉ [.blank, .comment, .punct] →
      breaks.any kind.startsWith = false := by
    decide
  refine ⟨c, others, hchars, fun hc => ?_⟩
  exact List.any_eq_false.mp (hall kind kind.mem_all hkind) c hc hstarts

/-- A name does not go on with the ampersand in front of it. -/
theorem NameText.ampersand {ident : String} (h : NameText ident.toList) (rest : List Char) :
    ∀ c ∈ (ident.toList ++ rest).head?, Punct.ampersand.goesOnWith c = false := by
  have hname : (TokenKind.name ident).Written := h
  obtain ⟨c, others, kind, hchars, hstarts, -, hkind⟩ := hname.startsWith nofun
  have hident : ident.toList = c :: others := hchars
  rw [hident]
  rintro d ⟨⟩
  by_contra hgoes
  have hmem : c ∈ '&' :: decimalDigits := by
    rcases Bool.or_eq_true_iff.mp (Bool.not_eq_false _ ▸ hgoes) with hfollows | hmarks
    · have hfollower : c ∈ ['&'] := List.contains_iff_mem.mp hfollows
      exact List.mem_singleton.mp hfollower ▸ List.mem_cons_self
    · exact List.mem_cons_of_mem _ (mem_decimalDigits (by decide) hmarks)
  have hall : ∀ kind ∈ [TokenClass.name, .localName, .argument],
      ('&' :: decimalDigits).any kind.startsWith = false := by
    decide
  exact List.any_eq_false.mp (hall kind (hkind ident rfl)) c hmem hstarts

/-- No token starts with a blank. -/
theorem TokenKind.Written.not_spacing {token : TokenKind} (h : token.Written) :
    ∃ c others, token.chars = c :: others ∧ isSpacing c = false := by
  by_cases hsign : ∃ sign, token = .punct sign
  · obtain ⟨sign, rfl⟩ := hsign
    have hfirsts : Punct.firsts.any isSpacing = false := by decide
    cases hchars : sign.spelling.toList with
    | nil => cases sign <;> cases hchars
    | cons c others =>
      have hfirst := List.any_eq_false.mp hfirsts c (Punct.mem_firsts sign.mem_spellings hchars)
      exact ⟨c, others, hchars, Bool.eq_false_iff.mpr hfirst⟩
  · obtain ⟨c, others, hchars, hbreak⟩ := h.not_mem_breaks fun sign heq => hsign ⟨sign, heq⟩
    refine ⟨c, others, hchars, ?_⟩
    by_contra hspacing
    refine hbreak ?_
    simp only [isSpacing, Bool.not_eq_false, Bool.or_eq_true, beq_iff_eq] at hspacing
    simp only [breaks, List.mem_cons]
    grind

/-- A prefix goes on with breaks only. -/
theorem Level.goesOnWith_of_unary {level : Level} {sign : Punct} {op : UnaryOp}
    (applies : level.unary? sign = some op) {c : Char} (hc : c ∉ breaks) :
    sign.goesOnWith c = false := by
  have hsign : sign ∈ [Punct.bang, .plus, .minus, .tilde, .less, .greater] := by
    cases level <;> cases sign <;> first | decide | cases applies
  have hall : ∀ sign ∈ [Punct.bang, .plus, .minus, .tilde, .less, .greater],
      sign.followers ⊆ breaks := by
    decide
  refine Bool.or_eq_false_iff.mpr ⟨?_, ?_⟩
  · rw [Bool.eq_false_iff, ne_eq, List.contains_iff_mem]
    exact fun hmem => hc (hall sign hsign hmem)
  · cases level <;> cases sign <;> first | rfl | cases applies

/-- A prefix that goes on with another sign that opens an operand is joined to a prefix. -/
theorem Level.joins_of_goesOnWith {level : Level} {sign follower : Punct} {op : UnaryOp}
    (applies : level.unary? sign = some op) (hopens : follower.opens = true) {c : Char}
    {others : List Char} (hspelling : follower.spelling.toList = c :: others)
    (hgoes : sign.goesOnWith c = true) :
    ∃ found, level.unary? follower = some found ∧ op.joins found = true := by
  cases level <;> cases sign <;> cases applies
  all_goals
    cases follower <;> cases hopens <;> cases hspelling <;>
      first | exact ⟨_, rfl, rfl⟩ | cases hgoes

/-! ## The text of a derivation -/

/-- A quoted text within brackets is none of the brackets. -/
theorem mem_between {opener closer token : Token} {tokens : List Token} {first last : Punct}
    {content : String} {petscii : Bool} (opens : opener.kind = .punct first)
    (closes : closer.kind = .punct last) (htoken : token ∈ opener :: tokens ++ [closer])
    (hkind : token.kind = .text content petscii) : token ∈ tokens := by
  rcases List.mem_append.mp htoken with hfront | hcloser
  · rcases List.mem_cons.mp hfront with rfl | hlist
    · cases opens.symm.trans hkind
    · exact hlist
  · obtain rfl := List.mem_singleton.mp hcloser
    cases closes.symm.trans hkind

mutual

/-- The quoted texts among the tokens of an operand are parts of it. -/
theorem OperandTree.text_mem {content : String} {petscii : Bool} :
    ∀ {tokens : List Token} {e : Expr}, OperandTree tokens e →
      ∀ token ∈ tokens, token.kind = .text content petscii → .text content petscii ∈ e.parts
  | _, _, .plain value, token, htoken, hkind => value.text_mem token htoken hkind
  | _, _, .immediate marked value, token, htoken, hkind => by
    rcases List.mem_cons.mp htoken with rfl | htoken
    · cases marked.symm.trans hkind
    · exact List.mem_cons_of_mem _ (value.text_mem token htoken hkind)

/-- The quoted texts among the tokens of an expression are parts of it. -/
theorem LevelTree.text_mem {content : String} {petscii : Bool} :
    ∀ {level : Level} {tokens : List Token} {e : Expr}, LevelTree level tokens e →
      ∀ token ∈ tokens, token.kind = .text content petscii → .text content petscii ∈ e.parts
  | _, _, _, .tighter _ inner, token, htoken, hkind => inner.text_mem token htoken hkind
  | _, _, _, .binary _ signed _ left right, token, htoken, hkind => by
    rcases List.mem_append.mp htoken with hleft | hright
    · exact List.mem_cons_of_mem _ (List.mem_append_left _ (left.text_mem token hleft hkind))
    · rcases List.mem_cons.mp hright with rfl | hright
      · cases signed.symm.trans hkind
      · exact List.mem_cons_of_mem _ (List.mem_append_right _ (right.text_mem token hright hkind))
  | _, _, _, .unary signed _ operand, token, htoken, hkind => by
    rcases List.mem_cons.mp htoken with rfl | htoken
    · cases signed.symm.trans hkind
    · exact List.mem_cons_of_mem _ (operand.text_mem token htoken hkind)
  | _, _, _, .number found, token, htoken, hkind => by
    obtain rfl := List.mem_singleton.mp htoken
    cases found.symm.trans hkind
  | _, _, _, .text found, token, htoken, hkind => by
    obtain rfl := List.mem_singleton.mp htoken
    cases found.symm.trans hkind
    exact List.mem_singleton.mpr rfl
  | _, _, _, .name found, token, htoken, hkind => by
    obtain rfl := List.mem_singleton.mp htoken
    cases found.symm.trans hkind
  | _, _, _, .longName marked found, token, htoken, hkind => by
    rcases List.mem_cons.mp htoken with rfl | htoken
    · cases marked.symm.trans hkind
    · obtain rfl := List.mem_singleton.mp htoken
      cases found.symm.trans hkind
  | _, _, _, .paren opens closes list, token, htoken, hkind =>
    List.mem_cons_of_mem _ (list.text_mem token (mem_between opens closes htoken hkind) hkind)
  | _, _, _, .bracket opens closes list, token, htoken, hkind =>
    List.mem_cons_of_mem _ (list.text_mem token (mem_between opens closes htoken hkind) hkind)

/-- The quoted texts among the tokens of a list are parts of its items. -/
theorem ItemsTree.text_mem {content : String} {petscii : Bool} :
    ∀ {tokens : List Token} {items : List Expr}, ItemsTree tokens items →
      ∀ token ∈ tokens, token.kind = .text content petscii →
        .text content petscii ∈ Expr.partsAll items
  | _, _, .one operand, token, htoken, hkind =>
    List.mem_append_left _ (operand.text_mem token htoken hkind)
  | _, _, .more divides operand rest, token, htoken, hkind => by
    rcases List.mem_append.mp htoken with hfirst | hrest
    · exact List.mem_append_left _ (operand.text_mem token hfirst hkind)
    · rcases List.mem_cons.mp hrest with rfl | hrest
      · cases divides.symm.trans hkind
      · exact List.mem_append_right _ (rest.text_mem token hrest hkind)

end

/-- The tokens of an operand without misprints can be written again. -/
theorem OperandTree.written {tokens : List Token} {e : Expr} (tree : OperandTree tokens e)
    (hread : ∀ token ∈ tokens, ∃ piece, (nextPiece piece).2 = .token token.kind)
    (hprints : e.Prints) : ∀ token ∈ tokens, token.kind.Written := by
  intro token htoken
  obtain ⟨piece, hpiece⟩ := hread token htoken
  refine written_of_nextPiece hpiece fun content petscii hkind c hc => ?_
  have hplain := hprints _ (tree.text_mem token htoken hkind)
  rw [Expr.misprints, List.any_eq_false] at hplain
  have hchar := hplain c hc
  rw [Bool.or_eq_true, beq_iff_eq, beq_iff_eq, not_or] at hchar
  exact hchar

/-- An expression that starts with a prefix of its level is that prefix applied. -/
theorem LevelTree.eq_unary {level : Level} {token : Token} {others : List Token} {e : Expr}
    {sign : Punct} {op : UnaryOp} (tree : LevelTree level (token :: others) e)
    (hkind : token.kind = .punct sign) (applies : level.unary? sign = some op) :
    ∃ operand, e = .unary op operand := by
  generalize htokens : token :: others = tokens at tree
  cases tree with
  | tighter below inner =>
    obtain ⟨first, behind, rfl, hstart⟩ := inner.starts
    obtain ⟨rfl, rfl⟩ := List.cons.inj htokens
    have hnone := (hstart sign hkind).2 level (by have := Level.rank_of_tighter below; omega)
    cases hnone.symm.trans applies
  | @binary _ _ _ joiner _ _ _ _ _ _ _ joins =>
    have hnone := Level.binary?_of_leads (Level.unary?_eq_some applies).2.1 joiner
    cases hnone.symm.trans joins
  | unary signed found operand =>
    obtain ⟨rfl, rfl⟩ := List.cons.inj htokens
    cases signed.symm.trans hkind
    cases found.symm.trans applies
    exact ⟨_, rfl⟩
  | _ => cases applies

theorem Expr.render_number (n : Number) :
    (number n).render.toList = (TokenKind.number n).chars := by
  rw [render]
  rfl

theorem Expr.render_text (content : String) (petscii : Bool) :
    (text content petscii).render.toList = (TokenKind.text content petscii).chars := by
  rw [render]
  rfl

theorem Expr.render_name (ident : String) :
    (name ⟨ident, false⟩).render.toList = (TokenKind.name ident).chars := by
  rw [render]
  rfl

theorem Expr.render_longName (ident : String) :
    (name ⟨ident, true⟩).render.toList =
      Punct.ampersand.spelling.toList ++ (TokenKind.name ident).chars := by
  rw [render, Name.render, if_pos rfl, String.toList_append]
  rfl

/-- The text of an expression starts with the text of its first token. -/
theorem LevelTree.chars_prefix : ∀ {level : Level} {tokens : List Token} {e : Expr},
    LevelTree level tokens e → ∀ first ∈ tokens.head?, first.kind.chars <+: e.render.toList
  | _, _, _, .tighter _ inner, first, hfirst => inner.chars_prefix first hfirst
  | _, _, _, .binary _ _ _ left _, first, hfirst => by
    obtain ⟨token, others, rfl, -⟩ := left.starts
    have hleft := left.chars_prefix first hfirst
    rw [Expr.render, String.append_assoc, String.append_assoc, String.append_assoc,
      String.toList_append]
    exact hleft.trans (List.prefix_append _ _)
  | _, _, _, .unary signed applies _, first, hfirst => by
    cases hfirst
    rw [signed, Expr.render, ← (Level.spelling_of_unary applies).1, String.toList_append]
    exact List.prefix_append _ _
  | _, _, _, .number found, first, hfirst => by
    cases hfirst
    rw [found, Expr.render_number]
  | _, _, _, .text found, first, hfirst => by
    cases hfirst
    rw [found, Expr.render_text]
  | _, _, _, .name found, first, hfirst => by
    cases hfirst
    rw [found, Expr.render_name]
  | _, _, _, .longName marked _, first, hfirst => by
    cases hfirst
    rw [marked, Expr.render_longName]
    exact List.prefix_append _ _
  | _, _, _, .paren opens _ _, first, hfirst => by
    cases hfirst
    rw [opens, Expr.render, if_neg Bool.false_ne_true, String.toList_append, String.toList_append,
      List.append_assoc]
    exact List.prefix_append _ _
  | _, _, _, .bracket opens _ _, first, hfirst => by
    cases hfirst
    rw [opens, Expr.render, if_pos rfl, String.toList_append, String.toList_append,
      List.append_assoc]
    exact List.prefix_append _ _

/-- The text of an operand starts with the text of its first token. -/
theorem OperandTree.chars_prefix {tokens : List Token} {e : Expr} (tree : OperandTree tokens e) :
    ∀ first ∈ tokens.head?, first.kind.chars <+: e.render.toList := by
  cases tree with
  | plain value => exact value.chars_prefix
  | immediate marked value =>
    rintro first ⟨⟩
    rw [marked, Expr.render, String.toList_append]
    exact List.prefix_append _ _

/-- The first character of a text that starts with a token. -/
theorem head_of_chars {chars others text : List Char} {c : Char} (h : chars <+: text)
    (hchars : chars = c :: others) (rest : List Char) : ∀ d ∈ (text ++ rest).head?, d = c := by
  obtain ⟨more, rfl⟩ := h
  rw [hchars]
  rintro d ⟨⟩
  rfl

/-- A text that starts with a token does not start with a blank. -/
theorem TokenKind.Written.alone {token : TokenKind} (h : token.Written) {text : List Char}
    (hbegins : token.chars <+: text) (rest : List Char) :
    ∀ c ∈ (text ++ rest).head?, isSpacing c = false := by
  obtain ⟨c, others, hchars, hspacing⟩ := h.not_spacing
  intro d hd
  rw [head_of_chars hbegins hchars rest d hd]
  exact hspacing

section Spelling

variable {tokens : List Token} {e : Expr}

theorem LevelTree.alone {level : Level} (tree : LevelTree level tokens e)
    (hwritten : ∀ token ∈ tokens, token.kind.Written) (rest : List Char) :
    ∀ c ∈ (e.render.toList ++ rest).head?, isSpacing c = false := by
  obtain ⟨first, others, rfl, -⟩ := tree.starts
  exact (hwritten first List.mem_cons_self).alone (tree.chars_prefix first rfl) rest

theorem OperandTree.alone (tree : OperandTree tokens e)
    (hwritten : ∀ token ∈ tokens, token.kind.Written) (rest : List Char) :
    ∀ c ∈ (e.render.toList ++ rest).head?, isSpacing c = false := by
  obtain ⟨first, others, rfl, -⟩ := tree.starts
  exact (hwritten first List.mem_cons_self).alone (tree.chars_prefix first rfl) rest

/-- A prefix does not go on with the text of its operand. -/
theorem LevelTree.stops_unary {level : Level} {sign : Punct} {op : UnaryOp}
    (operand : LevelTree level tokens e) (hwritten : ∀ token ∈ tokens, token.kind.Written)
    (applies : level.unary? sign = some op) (hprints : (Expr.unary op e).Prints)
    (rest : List Char) :
    ∀ c ∈ (e.render.toList ++ rest).head?, sign.goesOnWith c = false := by
  obtain ⟨first, others, rfl, hstart⟩ := operand.starts
  have hbegins := operand.chars_prefix first rfl
  intro d hd
  by_cases hsign : ∃ follower, first.kind = .punct follower
  · obtain ⟨follower, hkind⟩ := hsign
    obtain ⟨c, behind, hchars, -⟩ := (hwritten first List.mem_cons_self).not_spacing
    obtain rfl := head_of_chars hbegins hchars rest d hd
    rw [hkind] at hchars
    by_contra hgoes
    obtain ⟨found, hfound, hjoins⟩ := Level.joins_of_goesOnWith applies (hstart follower hkind).1
      hchars (Bool.not_eq_false _ ▸ hgoes)
    obtain ⟨inner, rfl⟩ := operand.eq_unary hkind hfound
    cases (hprints _ (Expr.self_mem_parts _)).symm.trans hjoins
  · obtain ⟨c, behind, hchars, hbreak⟩ := (hwritten first List.mem_cons_self).not_mem_breaks
      fun follower heq => hsign ⟨follower, heq⟩
    obtain rfl := head_of_chars hbegins hchars rest d hd
    exact Level.goesOnWith_of_unary applies hbreak

end Spelling

/-! ## Printed operands spell their tokens -/

theorem Expr.render_binary (op : BinaryOp) (l r : Expr) (rest : List Char) :
    (binary op l r).render.toList ++ rest =
      l.render.toList ++ (' ' :: (op.symbol.toList ++ (' ' :: (r.render.toList ++ rest)))) := by
  simp only [render, String.toList_append, List.append_assoc]
  rfl

/-- The text between the brackets of a group. -/
def Expr.renderItems (items : List Expr) : List Char := (joinWith ", " (renderAll items)).toList

theorem Expr.renderItems_one (e : Expr) : renderItems [e] = e.render.toList := by
  rw [renderItems, renderAll, renderAll, joinWith, String.intercalate_singleton]

theorem Expr.renderItems_more (e next : Expr) (others : List Expr) (rest : List Char) :
    renderItems (e :: next :: others) ++ rest =
      e.render.toList ++ (',' :: ' ' :: (renderItems (next :: others) ++ rest)) := by
  simp only [renderItems, renderAll, joinWith, String.intercalate_cons_cons, String.toList_append,
    List.append_assoc]
  rfl

theorem Expr.render_group (items : List Expr) (long : Bool) (rest : List Char) :
    (group items long).render.toList ++ rest =
      (if long then '[' else '(') ::
        (renderItems items ++ (if long then ']' else ')') :: rest) := by
  rw [render]
  cases long with
  | false =>
    rw [if_neg Bool.false_ne_true, String.toList_append, String.toList_append, List.append_assoc,
      List.append_assoc]
    rfl
  | true =>
    rw [if_pos rfl, String.toList_append, String.toList_append, List.append_assoc,
      List.append_assoc]
    rfl

theorem ItemsTree.alone {tokens : List Token} {items : List Expr} (list : ItemsTree tokens items)
    (hwritten : ∀ token ∈ tokens, token.kind.Written) (rest : List Char) :
    ∀ c ∈ (Expr.renderItems items ++ rest).head?, isSpacing c = false := by
  cases list with
  | one operand =>
    rw [Expr.renderItems_one]
    exact operand.alone hwritten rest
  | @more _ _ _ _ items _ operand list =>
    cases items with
    | nil => cases list
    | cons next others =>
      rw [Expr.renderItems_more]
      exact operand.alone (List.forall_mem_append.mp hwritten).1 _

theorem Closes.of_closer {c : Char} (h : c ∈ closers) (rest : List Char) : Closes (c :: rest) := by
  rintro d ⟨⟩
  exact h

/-- A separator is spelled whatever stands behind it. -/
theorem Spells.separator {sign : Punct} (hsign : sign ∈ Punct.separators) {text rest : List Char}
    {tokens : List TokenKind} (later : Spells text tokens rest) :
    Spells (sign.spelling.toList ++ text) (.punct sign :: tokens) rest := by
  have hdots : sign ≠ .ellipsis := by
    rintro rfl
    exact absurd hsign (by decide)
  exact .sign hdots (fun c _ => Punct.goesOnWith_of_separator hsign c) later

/-- A token that is all of an operand is spelled where it is closed. -/
theorem Spells.leaf {token : Token} {kind : TokenKind} {rest : List Char}
    (found : token.kind = kind) (hwritten : ∀ given ∈ [token], given.kind.Written)
    (hsign : kind ≠ .punct .ellipsis) (hrest : Closes rest) :
    Spells (kind.chars ++ rest) ([token].map Token.kind) rest := by
  subst found
  exact .closed (hwritten token List.mem_cons_self) hsign hrest .done

mutual

/-- The text of an operand spells the tokens that it is derived from. -/
theorem OperandTree.spells {tokens : List Token} {e : Expr} :
    OperandTree tokens e → (∀ token ∈ tokens, token.kind.Written) → e.Prints →
      ∀ {rest : List Char}, Closes rest →
        Spells (e.render.toList ++ rest) (tokens.map Token.kind) rest
  | .plain value, hwritten, hprints, _, hrest => value.spells hwritten hprints hrest
  | .immediate marked value, hwritten, hprints, rest, hrest => by
    obtain ⟨-, hvalue⟩ := List.forall_mem_cons.mp hwritten
    have hspells := value.spells hvalue hprints.of_immediate hrest
    have hhash : Punct.hash ∈ Punct.separators := by decide
    rw [Expr.render, String.toList_append, List.append_assoc, List.map_cons, marked]
    exact .separator hhash hspells

/-- The text of an expression spells the tokens that it is derived from. -/
theorem LevelTree.spells {level : Level} {tokens : List Token} {e : Expr} :
    LevelTree level tokens e → (∀ token ∈ tokens, token.kind.Written) → e.Prints →
      ∀ {rest : List Char}, Closes rest →
        Spells (e.render.toList ++ rest) (tokens.map Token.kind) rest
  | .tighter _ inner, hwritten, hprints, _, hrest => inner.spells hwritten hprints hrest
  | @LevelTree.binary level next token sign op front back l r below signed joins left right,
      hwritten, hprints, rest, hrest => by
    obtain ⟨hsymbol, hsign⟩ := Level.spelling_of_binary joins
    obtain ⟨hfront, hbehind⟩ := List.forall_mem_append.mp hwritten
    obtain ⟨-, hback⟩ := List.forall_mem_cons.mp hbehind
    obtain ⟨hl, hr⟩ := hprints.of_binary
    have hblank (text : List Char) : Closes (' ' :: text) := .of_closer (by decide) text
    have hoperator : (TokenKind.punct sign).Written := trivial
    -- The operator stands between blanks, so that it does not go on with its operand.
    have hright := Spells.blank (right.alone hback rest) (right.spells hback hr hrest)
    have hjoined := Spells.sign hsign ((hblank _).stopsSign sign) hright
    have hbetween := Spells.blank (hoperator.alone List.prefix_rfl _) hjoined
    rw [Expr.render_binary, ← hsymbol, List.map_append, List.map_cons, signed]
    exact (left.spells hfront hl (hblank _)).append hbetween
  | .unary signed applies operand, hwritten, hprints, rest, hrest => by
    obtain ⟨-, hoperand⟩ := List.forall_mem_cons.mp hwritten
    have hspells := operand.spells hoperand hprints.of_unary hrest
    obtain ⟨hsymbol, hsign⟩ := Level.spelling_of_unary applies
    rw [Expr.render, ← hsymbol, String.toList_append, List.append_assoc, List.map_cons, signed]
    exact .sign hsign (operand.stops_unary hoperand applies hprints rest) hspells
  | .number found, hwritten, _, rest, hrest => by
    rw [Expr.render_number]
    exact .leaf found hwritten nofun hrest
  | .text found, hwritten, _, rest, hrest => by
    rw [Expr.render_text]
    exact .leaf found hwritten nofun hrest
  | .name found, hwritten, _, rest, hrest => by
    rw [Expr.render_name]
    exact .leaf found hwritten nofun hrest
  | .longName marked found, hwritten, _, rest, hrest => by
    obtain ⟨-, htoken⟩ := List.forall_mem_cons.mp hwritten
    have hname := htoken _ List.mem_cons_self
    rw [found] at hname
    have hmark : Punct.ampersand ≠ .ellipsis := by decide
    rw [Expr.render_longName, List.append_assoc, List.map_cons, marked]
    exact .sign hmark (NameText.ampersand hname rest) (.leaf found htoken nofun hrest)
  | .paren opens closes list, hwritten, hprints, rest, hrest => by
    obtain ⟨-, hlist⟩ := List.forall_mem_cons.mp (List.forall_mem_append.mp hwritten).1
    have hopener : Punct.leftParen ∈ Punct.separators := by decide
    have hcloser : Punct.rightParen ∈ Punct.separators := by decide
    have hbehind : Closes (')' :: rest) := .of_closer (by decide) rest
    have hitems := list.spells hlist (fun item => hprints.of_group) hbehind
    rw [Expr.render_group, List.cons_append, List.map_cons, List.map_append, List.map_singleton,
      opens, closes]
    exact .separator hopener (hitems.append (.separator hcloser .done))
  | .bracket opens closes list, hwritten, hprints, rest, hrest => by
    obtain ⟨-, hlist⟩ := List.forall_mem_cons.mp (List.forall_mem_append.mp hwritten).1
    have hopener : Punct.leftBracket ∈ Punct.separators := by decide
    have hcloser : Punct.rightBracket ∈ Punct.separators := by decide
    have hbehind : Closes (']' :: rest) := .of_closer (by decide) rest
    have hitems := list.spells hlist (fun item => hprints.of_group) hbehind
    rw [Expr.render_group, List.cons_append, List.map_cons, List.map_append, List.map_singleton,
      opens, closes]
    exact .separator hopener (hitems.append (.separator hcloser .done))

/-- The texts of the items of a group spell the tokens that they are derived from. -/
theorem ItemsTree.spells {tokens : List Token} {items : List Expr} :
    ItemsTree tokens items → (∀ token ∈ tokens, token.kind.Written) →
      (∀ item ∈ items, item.Prints) → ∀ {rest : List Char}, Closes rest →
        Spells (Expr.renderItems items ++ rest) (tokens.map Token.kind) rest
  | .one operand, hwritten, hprints, rest, hrest => by
    rw [Expr.renderItems_one]
    exact operand.spells hwritten (hprints _ List.mem_cons_self) hrest
  | @ItemsTree.more comma front back e items divides operand list, hwritten, hprints, rest,
      hrest => by
    obtain ⟨hfront, hbehind⟩ := List.forall_mem_append.mp hwritten
    obtain ⟨-, hback⟩ := List.forall_mem_cons.mp hbehind
    obtain ⟨hfirst, hothers⟩ := List.forall_mem_cons.mp hprints
    have hcomma : Punct.comma ∈ Punct.separators := by decide
    have hlater := Spells.blank (list.alone hback rest) (list.spells hback hothers hrest)
    cases items with
    | nil => cases list
    | cons next others =>
      rw [Expr.renderItems_more, List.map_append, List.map_cons, divides]
      have hdivider : Closes (',' :: ' ' :: (Expr.renderItems (next :: others) ++ rest)) :=
        .of_closer (by decide) _
      exact (operand.spells hfront hfirst hdivider).append (.separator hcomma hlater)

end

/-! ## Reading what is printed -/

/-- The tokens of an operand that was read can be written again, and derive it. -/
theorem readLine_written {location : Location} {text : List Char} {line : Line}
    (h : readLine location text = .ok (some line)) {e : Expr} (he : e ∈ line.body.operands)
    (hprints : e.Prints) :
    ∃ tokens, Nonempty (OperandTree tokens e) ∧ ∀ token ∈ tokens, token.kind.Written := by
  obtain ⟨tokens, hlex, used, hused, ⟨tree⟩⟩ := readLine_operandIn h he
  exact ⟨used, ⟨tree⟩, tree.written (fun token htoken => lexLine_reads hlex (hused htoken)) hprints⟩

/-- Reading undoes printing. An operand of any source, printed as the only operand of a statement,
is read as the same operand: with its operators and groups, its names and marks, and its literals
in their radix and width. Excepted are operands with a quote or a backslash in a quoted text, and
those with byte selectors in a row that are read as one sign. -/
theorem readSource_render {source : Nat} {file text : String} {includedFrom : List IncludeSite}
    {read : SourceLines} (h : readSource source file text includedFrom = .ok read) {line : Line}
    (hline : line ∈ read.lines) {e : Expr} (he : e ∈ line.body.operands)
    (hprints : ∀ part ∈ e.parts, part.misprints = false) {name : String}
    (hname : (nextPiece name.toList).2 = .token (.name name)) (source' : Nat) (file' : String)
    (includedFrom' : List IncludeSite) :
    ∃ line' statement,
      readSource source' file' (" " ++ name ++ " " ++ e.render) includedFrom' =
        .ok ⟨[line'], []⟩ ∧
      line'.body = .statements none [statement] ∧ statement.name.node = name ∧
        statement.operands = [e] ∧ statement.ellipsis = false := by
  obtain ⟨location, piece, hread⟩ := readSource_mem h hline
  obtain ⟨tokens, ⟨tree⟩, hwritten⟩ := readLine_written hread he hprints
  have hnamed : (TokenKind.name name).Written := written_of_nextPiece hname nofun
  have hends : Closes [] := nofun
  have hoperand := tree.spells hwritten hprints hends
  rw [List.append_nil] at hoperand
  have hbehind := Spells.blank (List.append_nil e.render.toList ▸ tree.alone hwritten []) hoperand
  have hspells := Spells.closed hnamed nofun (.of_closer (by decide) _) hbehind
  have halone := hnamed.alone List.prefix_rfl (' ' :: e.render.toList)
  have htext : (" " ++ name ++ " " ++ e.render).toList =
      ' ' :: ((TokenKind.name name).chars ++ ' ' :: e.render.toList) := by
    simp only [String.toList_append, List.append_assoc]
    rfl
  have honeLine : OneLine .code (" " ++ name ++ " " ++ e.render).toList := by
    rw [htext]
    exact (Spells.blank halone hspells).oneLine
  obtain ⟨place, hplace⟩ := readSource_oneLine honeLine source' file' includedFrom'
  obtain ⟨line', statement, hread', hbody, hnode, hoperands, hellipsis⟩ :=
    readLine_spelled hspells halone (.one tree) place
  rw [← htext] at hread'
  exact ⟨line', statement, hplace line' hread', hbody, hnode, hoperands, hellipsis⟩

/-- An immediate operand with prefixes, groups in both brackets, a long name, a text that looks like
comments, and literals of three radices, one of them stated wider than it is. -/
def printedOperand : Expr :=
  let product : Expr := .binary .mul (.number (.ofHex 0x12 2)) (.number ⟨5, .binary, 1⟩)
  let sum : Expr := .binary .add (.unary .complement (.name ⟨"far", true⟩)) product
  let items : List Expr := [sum, .group [.name ⟨"@h-", false⟩, .text "a;/*" true] true]
  let power : Expr := .binary .pow (.number ⟨15, .octal, 1⟩) (.name ⟨"\\1", false⟩)
  let selected : Expr := .unary .negate (.unary .lowByte (.group items false))
  .immediate (.unary .logicalNot (.binary .notEqual selected power))

/-- The operand is read from a line in which it is spelled differently, and back from its text. -/
theorem readSource_render_groups :
    ∃ (read : SourceLines) (line line' : Line) (statement : Statement),
      readSource 0 "main.s" "x: m #!-<(~&far+$012*%101,[@h-,p\"a;/*\"])<>0o17**\\1" [] = .ok read ∧
      line ∈ read.lines ∧ printedOperand ∈ line.body.operands ∧
      readSource 1 "printed.s" (" " ++ ".db" ++ " " ++ printedOperand.render) [] =
        .ok ⟨[line'], []⟩ ∧
      line'.body = .statements none [statement] ∧ statement.name.node = ".db" ∧
        statement.operands = [printedOperand] ∧ statement.ellipsis = false := by
  obtain ⟨read, hread, hlines⟩ := exists_ok_of_any
    (fun read => read.lines.any fun line => line.body.operands == [printedOperand])
    (show (readSource 0 "main.s" "x: m #!-<(~&far+$012*%101,[@h-,p\"a;/*\"])<>0o17**\\1"
      []).toOption.any _ = true by decide +kernel)
  obtain ⟨line, hline, hoperands⟩ := List.any_eq_true.mp hlines
  have hoperand : printedOperand ∈ line.body.operands := by
    rw [eq_of_beq hoperands]
    exact List.mem_singleton_self printedOperand
  have hprints : ∀ part ∈ printedOperand.parts, part.misprints = false := by decide +kernel
  have hname : (nextPiece ".db".toList).2 = .token (.name ".db") := by decide +kernel
  obtain ⟨line', statement, hprinted, hrest⟩ :=
    readSource_render hread hline hoperand hprints hname 1 "printed.s" []
  exact ⟨read, line, line', statement, hread, hline, hoperand, hprinted, hrest⟩

end Asm65816
