import Asm65816.Line.Reader
import Asm65816.Proofs.OperandDerivations

/-!
# The grammar of lines

A line is an equate or a row of statements divided by colons, with one more colon allowed at its
end. The first column adds rules of its own, which say where a label may stand. Whatever is read as
a row of statements is derived by this grammar.
-/

namespace Asm65816

/-! ## Derivations -/

/-- A derivation of `NAME | NAME '...' | NAME operand (',' operand)* [',' '...']`. -/
inductive StatementTree : List Token → Type where
  | bare {token : Token} {ident : String} (named : token.kind = .name ident) :
      StatementTree [token]
  | ellipsis {token mark : Token} {ident : String} (named : token.kind = .name ident)
      (dots : mark.kind = .punct .ellipsis) : StatementTree [token, mark]
  | operands {token : Token} {ident : String} {tokens : List Token} {items : List Expr}
      (named : token.kind = .name ident) (list : ItemsTree tokens items) :
      StatementTree (token :: tokens)
  | openEnded {token comma mark : Token} {ident : String} {tokens : List Token}
      {items : List Expr} (named : token.kind = .name ident) (list : ItemsTree tokens items)
      (divides : comma.kind = .punct .comma) (dots : mark.kind = .punct .ellipsis) :
      StatementTree (token :: (tokens ++ [comma, mark]))

/-- A derivation of `statement (':' statement)*`. -/
inductive StatementsTree : List Token → Type where
  | one {tokens : List Token} (statement : StatementTree tokens) : StatementsTree tokens
  | more {colon : Token} {front back : List Token} (statement : StatementTree front)
      (divides : colon.kind = .punct .colon) (rest : StatementsTree back) :
      StatementsTree (front ++ colon :: back)

/-- A derivation of `NAME '=' operand | statement (':' statement)* [':']`. -/
inductive LineTree : List Token → Type where
  | equate {token sign : Token} {ident : String} {tokens : List Token} {e : Expr}
      (named : token.kind = .name ident) (assigns : sign.kind = .punct .assign)
      (value : OperandTree tokens e) : LineTree (token :: sign :: tokens)
  | statements {tokens : List Token} (list : StatementsTree tokens) : LineTree tokens
  | trailing {colon : Token} {tokens : List Token} (list : StatementsTree tokens)
      (ends : colon.kind = .punct .colon) : LineTree (tokens ++ [colon])

/-! ## What a derivation says -/

/-- The statement of a name and the tokens behind it: it reaches to the last of them. -/
def Statement.over (token : Token) (ident : String) (behind : List Token) (operands : List Expr)
    (ellipsis : Bool) : Statement :=
  ⟨⟨ident, token.span⟩, operands, ellipsis,
    { token.span with stop := behind.getLast?.elim token.span.stop fun last => last.span.stop }⟩

def StatementTree.statement {tokens : List Token} : StatementTree tokens → Statement
  | @bare token ident _ => .over token ident [] [] false
  | @ellipsis token mark ident _ _ => .over token ident [mark] [] true
  | @operands token ident tokens items _ _ => .over token ident tokens items false
  | @openEnded token comma mark ident tokens items _ _ _ _ =>
    .over token ident (tokens ++ [comma, mark]) items true

def StatementsTree.statements {tokens : List Token} : StatementsTree tokens → List Statement
  | .one statement => [statement.statement]
  | .more statement _ rest => statement.statement :: rest.statements

/-- The first statement of a line is a label where its name starts at byte `offset`. -/
def LineBody.ofStatements (offset : Nat) : List Statement → LineBody
  | [] => .statements none []
  | first :: rest =>
    if first.name.span.start = offset then .statements (some first.name) rest
    else .statements none (first :: rest)

def LineTree.body (offset : Nat) {tokens : List Token} : LineTree tokens → LineBody
  | @equate token _ ident _ e _ _ _ => .equate ⟨ident, token.span⟩ e
  | .statements list => .ofStatements offset list.statements
  | .trailing list _ => .ofStatements offset list.statements

/-- Behind a first token that starts at byte `offset` stands a colon, an equals sign or nothing. -/
def FirstColumn (offset : Nat) (tokens : List Token) : Prop :=
  ∀ first second rest, tokens = first :: second :: rest → first.span.start = offset →
    second.kind = .punct .colon ∨ second.kind = .punct .assign

/-- The rules of the first column, for a line that starts at byte `offset`: a first name there is
a label or is equated, and a colon ends the line only behind a label that stands alone. -/
def LineTree.InColumns (offset : Nat) {tokens : List Token} (tree : LineTree tokens) : Prop :=
  FirstColumn offset tokens ∧
    match tree with
    | @trailing _ tokens _ _ => ∃ label, tokens = [label] ∧ label.span.start = offset
    | _ => True

/-! ## What is read is derivable -/

/-- What stands behind a statement: nothing, or a colon. -/
def EndsStatement (rest : List Token) : Prop :=
  rest = [] ∨ ∃ colon others, colon.kind = .punct .colon ∧ rest = colon :: others

theorem consumedEnd_append (used rest : List Token) (fallback : Nat) :
    consumedEnd (used ++ rest) rest fallback =
      used.getLast?.elim fallback fun last => last.span.stop := by
  simp [consumedEnd]

theorem readOperands_finds {limit : Nat} {expected : Expectation} {tokens rest : List Token}
    {items : List Expr} {ellipsis : Bool}
    (h : readOperands limit expected tokens = .ok (items, ellipsis, rest)) :
    ∃ used, Nonempty (ItemsTree used items) ∧
      ((ellipsis = false ∧ tokens = used ++ rest) ∨
        (ellipsis = true ∧ ∃ comma mark, comma.kind = .punct .comma ∧
          mark.kind = .punct .ellipsis ∧ tokens = used ++ comma :: mark :: rest)) := by
  induction limit generalizing expected tokens items with
  | zero => cases h
  | succ limit ih =>
    rw [readOperands, bind_eq_ok] at h
    obtain ⟨⟨first, behind⟩, hfirst, h⟩ := h
    obtain ⟨used, rfl, ⟨tree⟩⟩ := readOperand_finds hfirst
    dsimp only at h
    split at h
    · cases h
      exact ⟨used, ⟨.one tree⟩, .inr ⟨rfl, _, _, rfl, rfl, rfl⟩⟩
    · rename_i span text others _
      rw [bind_eq_ok] at h
      obtain ⟨⟨operands, found, left⟩, hoperands, h⟩ := h
      cases h
      obtain ⟨back, ⟨list⟩, hback⟩ := ih hoperands
      have divides : (Token.mk (.punct .comma) span text).kind = .punct .comma := rfl
      refine ⟨_, ⟨.more divides tree list⟩, ?_⟩
      rcases hback with ⟨hfound, rfl⟩ | ⟨hfound, comma, mark, hcomma, hmark, rfl⟩
      · exact .inl ⟨hfound, by simp⟩
      · exact .inr ⟨hfound, comma, mark, hcomma, hmark, by simp⟩
    · cases h
      exact ⟨used, ⟨.one tree⟩, .inl ⟨rfl, rfl⟩⟩

/-- A statement reaches to the end of the tokens that were consumed for it. -/
theorem Statement.over_eq (token : Token) (ident : String) (used rest : List Token)
    (operands : List Expr) (ellipsis : Bool) :
    Statement.over token ident used operands ellipsis =
      ⟨⟨ident, token.span⟩, operands, ellipsis,
        { token.span with stop := consumedEnd (used ++ rest) rest token.span.stop }⟩ := by
  rw [Statement.over, consumedEnd_append]

theorem StatementTree.of_operands {token : Token} {ident : String} {tokens rest : List Token}
    {items : List Expr} {limit : Nat} {expected : Expectation} {ellipsis : Bool}
    (named : token.kind = .name ident)
    (h : readOperands limit expected tokens = .ok (items, ellipsis, rest)) :
    ∃ used, ∃ tree : StatementTree (token :: used), tokens = used ++ rest ∧
      tree.statement = Statement.over token ident used items ellipsis := by
  obtain ⟨used, ⟨list⟩, hused⟩ := readOperands_finds h
  rcases hused with ⟨rfl, rfl⟩ | ⟨rfl, comma, mark, hcomma, hmark, rfl⟩
  · exact ⟨used, .operands named list, rfl, rfl⟩
  · exact ⟨used ++ [comma, mark], .openEnded named list hcomma hmark, by simp, rfl⟩

theorem readStatement_finds {afterName : Expectation} {token : Token} {ident : String}
    {tokens rest : List Token} {statement : Statement} (named : token.kind = .name ident)
    (h : readStatement afterName ⟨ident, token.span⟩ tokens = .ok (statement, rest)) :
    ∃ used, ∃ tree : StatementTree (token :: used), tokens = used ++ rest ∧
      tree.statement = statement ∧ EndsStatement rest := by
  unfold readStatement at h
  dsimp only at h
  split at h
  · cases h
    exact ⟨[], .bare named, rfl, rfl, .inl rfl⟩
  · cases h
    exact ⟨[], .bare named, rfl, Statement.over_eq .., .inr ⟨_, _, rfl, rfl⟩⟩
  · rename_i span text _
    have dots : (Token.mk (.punct .ellipsis) span text).kind = .punct .ellipsis := rfl
    split at h
    · cases h
      exact ⟨_, .ellipsis named dots, rfl, rfl, .inl rfl⟩
    · cases h
      exact ⟨_, .ellipsis named dots, rfl, Statement.over_eq .., .inr ⟨_, _, rfl, rfl⟩⟩
    · cases h
  · rw [bind_eq_ok] at h
    obtain ⟨⟨operands, ellipsis, left⟩, hoperands, h⟩ := h
    obtain ⟨used, tree, rfl, htree⟩ := StatementTree.of_operands named hoperands
    dsimp only at h
    split at h
    · cases h
      exact ⟨used, tree, rfl, htree.trans (Statement.over_eq ..), .inl rfl⟩
    · cases h
      exact ⟨used, tree, rfl, htree.trans (Statement.over_eq ..), .inr ⟨_, _, rfl, rfl⟩⟩
    · cases h

theorem readStatements_finds {limit : Nat} {afterName : Expectation} {token : Token}
    {ident : String} {tokens : List Token} {statements : List Statement} {trailing : Option Span}
    (named : token.kind = .name ident)
    (h : readStatements limit afterName ⟨ident, token.span⟩ tokens = .ok (statements, trailing)) :
    ∃ used, ∃ tree : StatementsTree used, tree.statements = statements ∧
      ((trailing = none ∧ token :: tokens = used) ∨
        ∃ colon, trailing = some colon.span ∧ colon.kind = .punct .colon ∧
          token :: tokens = used ++ [colon]) := by
  induction limit generalizing afterName token ident tokens statements with
  | zero => cases h
  | succ limit ih =>
    rw [readStatements, bind_eq_ok] at h
    obtain ⟨⟨statement, rest⟩, hstatement, h⟩ := h
    obtain ⟨used, tree, rfl, htree, hends⟩ := readStatement_finds named hstatement
    subst htree
    dsimp only at h
    split at h
    · cases h
      exact ⟨_, .one tree, rfl, .inl ⟨rfl, by simp⟩⟩
    · rename_i colon
      cases h
      rcases hends with hnil | ⟨found, others, hcolon, hfound⟩
      · cases hnil
      · cases hfound
        exact ⟨_, .one tree, rfl, .inr ⟨colon, rfl, hcolon, rfl⟩⟩
    · rename_i colon next span text others
      rw [bind_eq_ok] at h
      obtain ⟨⟨later, found⟩, hlater, h⟩ := h
      cases h
      have hnamed : (Token.mk (.name next) span text).kind = .name next := rfl
      obtain ⟨back, list, hlist, hback⟩ := ih hnamed hlater
      subst hlist
      rcases hends with hnil | ⟨first, remaining, hcolon, hfirst⟩
      · cases hnil
      · cases hfirst
        refine ⟨_, .more tree hcolon list, rfl, ?_⟩
        rcases hback with ⟨hnone, hback⟩ | ⟨last, hlast, hkind, hback⟩
        · exact .inl ⟨hnone, by simp [hback]⟩
        · exact .inr ⟨last, hlast, hkind, by simp [hback]⟩
    · cases h

end Asm65816
