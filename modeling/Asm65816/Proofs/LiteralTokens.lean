import Asm65816.Proofs.LineDerivations
import Asm65816.Proofs.WidthEstimates

/-!
# The literals of a line

An operand has no numbers but those of the tokens it was derived from. Every number token of a line
is a word that its digits have room for, so the same is true of every literal that an operand is
written with, to any depth of groups and operators.
-/

namespace Asm65816

/-! ## Number tokens -/

/-- A number is read as it is given, and only when it is a word. -/
theorem readNumber_isWord {value width : Nat} {radix : Radix} {n : Number}
    (h : readNumber value radix width = .token (.number n)) : IsWord n.value := by
  obtain rfl := readNumber_eq_token h
  unfold readNumber at h
  split at h
  case isTrue hrange => exact ⟨by unfold minWord; dsimp only; omega, hrange.1⟩
  case isFalse => cases h

/-- Every class reads numbers that are words. -/
theorem TokenClass.read_isWord {kind : TokenClass} {text : List Char} {n : Number}
    (h : kind.read text = .token (.number n)) : IsWord n.value := by
  cases kind with
  | hexadecimal | octal | decimal => exact readNumber_isWord h
  | binary =>
    unfold read at h
    dsimp only at h
    split at h
    case isTrue => cases h
    case isFalse => exact readNumber_isWord h
  | punct =>
    unfold read at h
    dsimp only at h
    split at h
    · cases h
    · cases h
  | _ => cases h

/-- The next piece of a text is no number, or a word. -/
theorem nextPiece_isWord {text : List Char} {n : Number}
    (h : (nextPiece text).2 = .token (.number n)) : IsWord n.value := by
  unfold nextPiece at h
  split at h
  · exact TokenClass.read_isWord h
  · split at h
    · cases h
    · cases h

/-- The numbers of a line are words. -/
theorem lexLine_isWord {source offset : Nat} {text : List Char} {tokens : List Token}
    (h : lexLine source offset text = .ok tokens) {token : Token} (htoken : token ∈ tokens)
    {n : Number} (hn : token.kind = .number n) : IsWord n.value := by
  obtain ⟨piece, hpiece⟩ := lexLine_reads h htoken
  exact nextPiece_isWord (hpiece.trans (congrArg Reading.token hn))

/-! ## Derivations -/

/-- Some token is the number. -/
def NumberIn (tokens : List Token) (n : Number) : Prop := ∃ token ∈ tokens, token.kind = .number n

/-- More tokens have no fewer numbers. -/
theorem NumberIn.mono {tokens more : List Token} {n : Number} (h : NumberIn tokens n)
    (hsubset : tokens ⊆ more) : NumberIn more n := by
  obtain ⟨token, htoken, hn⟩ := h
  exact ⟨token, hsubset htoken, hn⟩

mutual

/-- An operand has the literals of the tokens it is derived from. -/
theorem OperandTree.numberIn : ∀ {tokens : List Token} {e : Expr}, OperandTree tokens e →
    ∀ n ∈ e.literals, NumberIn tokens n
  | _, _, .plain value, n, hn => value.numberIn n hn
  | _, _, .immediate _ value, n, hn => (value.numberIn n hn).mono (List.subset_cons_self _ _)

/-- An expression of any level has the literals of the tokens it is derived from. -/
theorem LevelTree.numberIn : ∀ {level : Level} {tokens : List Token} {e : Expr},
    LevelTree level tokens e → ∀ n ∈ e.literals, NumberIn tokens n
  | _, _, _, .tighter _ inner, n, hn => inner.numberIn n hn
  | _, _, _, .binary _ _ _ left right, n, hn => by
    rw [Expr.literals, List.mem_append] at hn
    rcases hn with hleft | hright
    · exact (left.numberIn n hleft).mono (List.subset_append_left _ _)
    · refine (right.numberIn n hright).mono fun token htoken => ?_
      exact List.mem_append_right _ (List.mem_cons_of_mem _ htoken)
  | _, _, _, .unary _ _ operand, n, hn =>
    (operand.numberIn n hn).mono (List.subset_cons_self _ _)
  | _, _, _, .number found, n, hn => by
    obtain rfl := List.mem_singleton.mp hn
    exact ⟨_, List.mem_cons_self, found⟩
  | _, _, _, .text _, n, hn => by cases hn
  | _, _, _, .name _, n, hn => by cases hn
  | _, _, _, .longName _ _, n, hn => by cases hn
  | _, _, _, .paren _ _ list, n, hn => (list.numberIn n hn).mono fun token htoken =>
    List.mem_append_left _ (List.mem_cons_of_mem _ htoken)
  | _, _, _, .bracket _ _ list, n, hn => (list.numberIn n hn).mono fun token htoken =>
    List.mem_append_left _ (List.mem_cons_of_mem _ htoken)

/-- The items of a list have the literals of the tokens they are derived from. -/
theorem ItemsTree.numberIn : ∀ {tokens : List Token} {items : List Expr}, ItemsTree tokens items →
    ∀ n ∈ Expr.literalsAll items, NumberIn tokens n
  | _, _, .one operand, n, hn => by
    rw [Expr.literalsAll, Expr.literalsAll, List.append_nil] at hn
    exact operand.numberIn n hn
  | _, _, .more _ operand rest, n, hn => by
    rw [Expr.literalsAll, List.mem_append] at hn
    rcases hn with hfirst | hrest
    · exact (operand.numberIn n hfirst).mono (List.subset_append_left _ _)
    · refine (rest.numberIn n hrest).mono fun token htoken => ?_
      exact List.mem_append_right _ (List.mem_cons_of_mem _ htoken)

end

/-! ## The operands of a line -/

/-- Some of the tokens derive the operand. -/
def OperandIn (tokens : List Token) (e : Expr) : Prop :=
  ∃ used, used ⊆ tokens ∧ Nonempty (OperandTree used e)

theorem OperandIn.mono {tokens more : List Token} {e : Expr} (h : OperandIn tokens e)
    (hsubset : tokens ⊆ more) : OperandIn more e := by
  obtain ⟨used, hused, tree⟩ := h
  exact ⟨used, List.Subset.trans hused hsubset, tree⟩

/-- The items of a list are derived from its tokens. -/
theorem ItemsTree.operandIn {tokens : List Token} {items : List Expr} :
    ItemsTree tokens items → ∀ e ∈ items, OperandIn tokens e
  | .one operand, e, he => by
    obtain rfl := List.mem_singleton.mp he
    exact ⟨tokens, List.Subset.refl _, ⟨operand⟩⟩
  | @ItemsTree.more comma front back first items _ operand rest, e, he => by
    rcases List.mem_cons.mp he with rfl | hrest
    · exact ⟨front, List.subset_append_left _ _, ⟨operand⟩⟩
    · refine (rest.operandIn e hrest).mono fun token htoken => ?_
      exact List.mem_append_right _ (List.mem_cons_of_mem _ htoken)

/-- The operands of a statement are derived from its tokens. -/
theorem StatementTree.operandIn {tokens : List Token} (tree : StatementTree tokens) {e : Expr}
    (he : e ∈ tree.statement.operands) : OperandIn tokens e := by
  cases tree with
  | bare named => cases he
  | ellipsis named dots => cases he
  | operands named list => exact (list.operandIn e he).mono (List.subset_cons_self _ _)
  | openEnded named list divides dots =>
    refine (list.operandIn e he).mono fun token htoken => ?_
    exact List.mem_cons_of_mem _ (List.mem_append_left _ htoken)

/-- The operands of a row of statements are derived from its tokens. -/
theorem StatementsTree.operandIn {tokens : List Token} (tree : StatementsTree tokens)
    {statement : Statement} (hstatement : statement ∈ tree.statements) {e : Expr}
    (he : e ∈ statement.operands) : OperandIn tokens e := by
  induction tree with
  | one single =>
    obtain rfl := List.mem_singleton.mp hstatement
    exact single.operandIn he
  | more first divides rest ih =>
    rcases List.mem_cons.mp hstatement with rfl | hrest
    · exact (first.operandIn he).mono (List.subset_append_left _ _)
    · refine (ih hrest).mono fun token htoken => ?_
      exact List.mem_append_right _ (List.mem_cons_of_mem _ htoken)

/-- Telling the label of a line apart adds no operands. -/
theorem LineBody.mem_operands_ofStatements {offset : Nat} {statements : List Statement} {e : Expr}
    (h : e ∈ (LineBody.ofStatements offset statements).operands) :
    ∃ statement ∈ statements, e ∈ statement.operands := by
  cases statements with
  | nil => cases h
  | cons first rest =>
    rw [ofStatements] at h
    split at h
    · obtain ⟨statement, hstatement, he⟩ := List.mem_flatMap.mp h
      exact ⟨statement, List.mem_cons_of_mem _ hstatement, he⟩
    · exact List.mem_flatMap.mp h

/-- The operands of a line are derived from its tokens. -/
theorem LineTree.operandIn {tokens : List Token} (tree : LineTree tokens) {offset : Nat} {e : Expr}
    (he : e ∈ (tree.body offset).operands) : OperandIn tokens e := by
  cases tree with
  | @equate token sign ident behind value named assigns operand =>
    obtain rfl := List.mem_singleton.mp he
    exact ⟨behind, fun token htoken => List.mem_cons_of_mem _ (List.mem_cons_of_mem _ htoken),
      ⟨operand⟩⟩
  | statements list =>
    obtain ⟨statement, hstatement, he⟩ := LineBody.mem_operands_ofStatements he
    exact list.operandIn hstatement he
  | trailing list ends =>
    obtain ⟨statement, hstatement, he⟩ := LineBody.mem_operands_ofStatements he
    exact (list.operandIn hstatement he).mono (List.subset_append_left _ _)

/-- The operands of a line that is read are derived from its tokens. -/
theorem readLine_operandIn {location : Location} {text : List Char} {line : Line}
    (h : readLine location text = .ok (some line)) {e : Expr} (he : e ∈ line.body.operands) :
    ∃ tokens, lexLine location.span.source location.span.start text = .ok tokens ∧
      OperandIn tokens e := by
  obtain ⟨tokens, hlex, -⟩ := bind_eq_ok.mp h
  have hlast : ∃ last, tokens.getLast? = some last := by
    cases hnone : tokens.getLast? with
    | some last => exact ⟨last, rfl⟩
    | none =>
      obtain rfl := List.getLast?_eq_none_iff.mp hnone
      cases (readLine_blank hlex).symm.trans h
  obtain ⟨last, hlast⟩ := hlast
  obtain ⟨hcolumns, body, hbody, hline⟩ := (readLine_eq_ok hlex hlast).mp h
  cases hline
  obtain ⟨tree, -, rfl⟩ := readBody_finds hbody hcolumns
  exact ⟨tokens, hlex, tree.operandIn he⟩

/-- Every literal of a line that is read is a word that its digits have room for. -/
theorem readLine_literals {location : Location} {text : List Char} {line : Line}
    (h : readLine location text = .ok (some line)) {e : Expr} (he : e ∈ line.body.operands) :
    ∀ n ∈ e.literals, IsWord n.value ∧ n.Sound := by
  intro n hn
  obtain ⟨tokens, hlex, used, hused, ⟨tree⟩⟩ := readLine_operandIn h he
  obtain ⟨token, htoken, hkind⟩ := (tree.numberIn n hn).mono hused
  exact ⟨lexLine_isWord hlex htoken hkind, lexLine_sound hlex token htoken n hkind⟩

end Asm65816
