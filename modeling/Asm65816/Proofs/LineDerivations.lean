import Asm65816.Proofs.LineGrammar

/-!
# Derivations of lines

The derivations of the grammar of lines that keep to the rules of the first column are exactly
the lines that are read. What is read is what the derivation says, and there is only one: where a
statement ends, and whether a comma or a colon goes on, is decided by the tokens alone.
-/

namespace Asm65816

/-! ## What is derivable is read -/

/-- What stands behind the operands of a statement, whether `...` ends them, and what is left. -/
inductive OperandsEnd : List Token → Bool → List Token → Prop where
  | statement {rest : List Token} (ends : EndsStatement rest) : OperandsEnd rest false rest
  | ellipsis {comma mark : Token} {rest : List Token} (divides : comma.kind = .punct .comma)
      (dots : mark.kind = .punct .ellipsis) : OperandsEnd (comma :: mark :: rest) true rest

theorem EndsStatement.ends {rest : List Token} (h : EndsStatement rest) (level : Level) :
    level.Ends rest := by
  rcases h with rfl | ⟨colon, others, hcolon, rfl⟩
  · intro token htoken
    cases htoken
  · exact level.ends_of_punct hcolon rfl

theorem OperandsEnd.ends {behind rest : List Token} {ellipsis : Bool}
    (h : OperandsEnd behind ellipsis rest) (level : Level) : level.Ends behind := by
  cases h with
  | statement ends => exact ends.ends level
  | ellipsis divides => exact level.ends_of_punct divides rfl

theorem readOperands_last {limit : Nat} {expected : Expectation} {tokens behind rest : List Token}
    {e : Expr} {ellipsis : Bool} (hread : readOperand expected tokens = .ok (e, behind))
    (hends : OperandsEnd behind ellipsis rest) :
    readOperands (limit + 1) expected tokens = .ok ([e], ellipsis, rest) := by
  rw [readOperands, hread, ok_bind]
  cases hends with
  | statement ends =>
    rcases ends with rfl | ⟨⟨kind, span, text⟩, others, hcolon, rfl⟩
    · rfl
    · cases hcolon
      rfl
  | @ellipsis comma mark _ divides dots =>
    obtain ⟨kind, span, text⟩ := comma
    obtain ⟨kind, span, text⟩ := mark
    cases divides
    cases dots
    rfl

theorem readOperands_comma {limit : Nat} {expected : Expectation} {comma next : Token}
    {tokens others rest : List Token} {e : Expr} {items : List Expr} {ellipsis : Bool}
    (divides : comma.kind = .punct .comma) (hnext : next.kind ≠ .punct .ellipsis)
    (hread : readOperand expected tokens = .ok (e, comma :: next :: others))
    (hitems : readOperands limit .nextOperand (next :: others) = .ok (items, ellipsis, rest)) :
    readOperands (limit + 1) expected tokens = .ok (e :: items, ellipsis, rest) := by
  obtain ⟨kind, span, text⟩ := comma
  cases divides
  rw [readOperands, hread, ok_bind]
  dsimp only
  split
  · rename_i heq
    cases heq
    exact absurd rfl hnext
  · rename_i heq
    cases heq
    rw [hitems, ok_bind]
    rfl
  · rename_i hother
    exact absurd rfl (hother span text _)

theorem ItemsTree.starts {tokens : List Token} {items : List Expr} (tree : ItemsTree tokens items) :
    ∃ token others, tokens = token :: others ∧
      ∀ sign, token.kind = .punct sign → sign.opensOperand = true := by
  cases tree with
  | one operand => exact operand.starts
  | more _ operand =>
    obtain ⟨token, others, rfl, hstart⟩ := operand.starts
    exact ⟨token, _, rfl, hstart⟩

theorem ItemsTree.readOperands {tokens behind rest : List Token} {items : List Expr} {limit : Nat}
    (expected : Expectation) {ellipsis : Bool} (hlimit : tokens.length ≤ limit)
    (hends : OperandsEnd behind ellipsis rest) : ItemsTree tokens items →
      readOperands limit expected (tokens ++ behind) = .ok (items, ellipsis, rest)
  | .one operand => by
    have hread := operand.readOperand expected behind (hends.ends .logicalOr)
    cases limit with
    | zero =>
      obtain ⟨token, others, rfl, -⟩ := operand.starts
      cases hlimit
    | succ limit => exact readOperands_last hread hends
  | .more divides operand others => by
    rename_i comma front back e items
    simp only [List.length_append, List.length_cons] at hlimit
    cases limit with
    | zero => omega
    | succ limit =>
      have hback : back.length ≤ limit := by omega
      have hitems := others.readOperands .nextOperand hback hends
      have hread := operand.readOperand expected (comma :: (back ++ behind))
        (Level.ends_of_punct .logicalOr divides rfl)
      obtain ⟨next, later, rfl, hnext⟩ := others.starts
      rw [List.append_assoc]
      refine readOperands_comma divides ?_ hread hitems
      intro hkind
      cases hnext _ hkind

theorem readStatement_operands {afterName : Expectation} {name : Spanned String} {first : Token}
    {others rest : List Token} {items : List Expr} {ellipsis : Bool}
    (hstart : ∀ sign, first.kind = .punct sign → sign.opensOperand = true)
    (hread : readOperands (first :: others).length afterName (first :: others) =
      .ok (items, ellipsis, rest)) (hends : EndsStatement rest) :
    readStatement afterName name (first :: others) =
      .ok (⟨name, items, ellipsis,
        { name.span with stop := consumedEnd (first :: others) rest name.span.stop }⟩, rest) := by
  obtain ⟨kind, span, text⟩ := first
  unfold readStatement
  split
  · rename_i heq
    cases heq
  · rename_i heq
    cases heq
    cases hstart _ rfl
  · rename_i heq
    cases heq
    cases hstart _ rfl
  · rw [hread, ok_bind]
    rcases hends with rfl | ⟨⟨kind, span, text⟩, later, hcolon, rfl⟩
    · rfl
    · cases hcolon
      rfl

/-- The operands of a statement are read up to what ends it. -/
theorem ItemsTree.readStatement {tokens rest : List Token} {items : List Expr} {ellipsis : Bool}
    (list : ItemsTree tokens items) (token : Token) (ident : String) (behind : List Token)
    (afterName : Expectation) (hends : OperandsEnd (behind ++ rest) ellipsis rest)
    (hrest : EndsStatement rest) :
    readStatement afterName ⟨ident, token.span⟩ (tokens ++ behind ++ rest) =
      .ok (Statement.over token ident (tokens ++ behind) items ellipsis, rest) := by
  obtain ⟨first, others, rfl, hstart⟩ := list.starts
  have hlimit : (first :: others).length ≤ (first :: others ++ behind ++ rest).length := by
    simp only [List.length_append]
    omega
  have hread := list.readOperands afterName hlimit hends
  rw [← List.append_assoc] at hread
  rw [Statement.over_eq _ _ _ rest]
  exact readStatement_operands hstart hread hrest

/-- A derivation of a statement is read up to what ends it. -/
theorem StatementTree.read {tokens : List Token} (tree : StatementTree tokens) :
    ∃ token ident behind, tokens = token :: behind ∧ token.kind = .name ident ∧
      ∀ afterName rest, EndsStatement rest →
        readStatement afterName ⟨ident, token.span⟩ (behind ++ rest) =
          .ok (tree.statement, rest) := by
  cases tree with
  | @bare token ident named =>
    refine ⟨token, ident, [], rfl, named, fun afterName rest hrest => ?_⟩
    rcases hrest with rfl | ⟨⟨kind, span, text⟩, later, hcolon, rfl⟩
    · rfl
    · cases hcolon
      rw [StatementTree.statement, Statement.over_eq _ _ _ (⟨.punct .colon, span, text⟩ :: later)]
      rfl
  | @ellipsis token mark ident named dots =>
    refine ⟨token, ident, [mark], rfl, named, fun afterName rest hrest => ?_⟩
    obtain ⟨kind, span, text⟩ := mark
    cases dots
    rcases hrest with rfl | ⟨⟨kind, span, text⟩, later, hcolon, rfl⟩
    · rfl
    · cases hcolon
      rw [StatementTree.statement, Statement.over_eq _ _ _ (⟨.punct .colon, span, text⟩ :: later)]
      rfl
  | @operands token ident tokens items named list =>
    refine ⟨token, ident, tokens, rfl, named, fun afterName rest hrest => ?_⟩
    have hread := list.readStatement token ident [] afterName (.statement hrest) hrest
    rw [List.append_nil] at hread
    exact hread
  | @openEnded token comma mark ident tokens items named list divides dots =>
    refine ⟨token, ident, tokens ++ [comma, mark], rfl, named, fun afterName rest hrest => ?_⟩
    exact list.readStatement token ident _ afterName (.ellipsis divides dots) hrest

/-- A derivation of statements is read whole, with the colon that may end the line. -/
theorem StatementsTree.read {tokens : List Token} (tree : StatementsTree tokens) :
    ∃ token ident behind, tokens = token :: behind ∧ token.kind = .name ident ∧
      ∀ limit afterName, tokens.length ≤ limit →
        readStatements limit afterName ⟨ident, token.span⟩ behind =
            .ok (tree.statements, none) ∧
          ∀ colon : Token, colon.kind = .punct .colon →
            readStatements limit afterName ⟨ident, token.span⟩ (behind ++ [colon]) =
              .ok (tree.statements, some colon.span) := by
  induction tree with
  | one statement =>
    obtain ⟨token, ident, behind, rfl, named, hread⟩ := statement.read
    refine ⟨token, ident, behind, rfl, named, fun limit afterName hlimit => ?_⟩
    cases limit with
    | zero => cases hlimit
    | succ limit =>
      have hwhole := hread afterName [] (.inl rfl)
      rw [List.append_nil] at hwhole
      constructor
      · rw [readStatements, hwhole]
        rfl
      · intro colon hcolon
        rw [readStatements, hread afterName [colon] (.inr ⟨colon, [], hcolon, rfl⟩)]
        rfl
  | @more colon front back statement divides rest ih =>
    obtain ⟨token, ident, behind, rfl, named, hread⟩ := statement.read
    obtain ⟨⟨kind, span, text⟩, next, later, rfl, hnext, hlater⟩ := ih
    cases hnext
    refine ⟨token, ident, behind ++ colon :: ⟨.name next, span, text⟩ :: later, rfl, named,
      fun limit afterName hlimit => ?_⟩
    cases limit with
    | zero => cases hlimit
    | succ limit =>
      simp only [List.length_append, List.length_cons] at hlimit
      have hfits : (⟨.name next, span, text⟩ :: later).length ≤ limit := by
        simp only [List.length_cons]
        omega
      obtain ⟨hplain, htrailing⟩ := hlater limit .laterName hfits
      constructor
      · rw [readStatements, hread afterName _ (.inr ⟨colon, _, divides, rfl⟩), ok_bind]
        simp only [hplain, ok_bind]
        rfl
      · intro last hlast
        rw [List.append_assoc, List.cons_append, List.cons_append, readStatements,
          hread afterName _ (.inr ⟨colon, _, divides, rfl⟩), ok_bind]
        simp only [htrailing last hlast, ok_bind]
        rfl

/-! ## A line has one derivation -/

theorem StatementTree.statement_eq {tokens others : List Token} (h : tokens = others)
    (tree : StatementTree tokens) (other : StatementTree others) :
    tree.statement = other.statement := by
  obtain ⟨token, ident, behind, rfl, named, hread⟩ := tree.read
  obtain ⟨token', ident', behind', rfl, named', hread'⟩ := other.read
  cases h
  cases named.symm.trans named'
  have hfirst := hread .firstName [] (.inl rfl)
  rw [hread' .firstName [] (.inl rfl)] at hfirst
  injection hfirst with hpair
  exact (congrArg Prod.fst hpair).symm

theorem StatementTree.unique {tokens others : List Token} (h : tokens = others)
    (tree : StatementTree tokens) (other : StatementTree others) : HEq tree other := by
  have hstatement := tree.statement_eq h other
  have hitems := congrArg Statement.operands hstatement
  have hdots := congrArg Statement.ellipsis hstatement
  cases tree with
  | bare named =>
    cases other with
    | bare named' =>
      cases h
      cases named.symm.trans named'
      rfl
    | operands _ list =>
      cases hitems
      cases list
    | ellipsis => cases hdots
    | openEnded => cases hdots
  | ellipsis named =>
    cases other with
    | ellipsis named' =>
      cases h
      cases named.symm.trans named'
      rfl
    | openEnded _ list =>
      cases hitems
      cases list
    | bare => cases hdots
    | operands => cases hdots
  | operands named list =>
    cases other with
    | bare =>
      cases hitems
      cases list
    | operands named' list' =>
      cases hitems
      cases h
      cases named.symm.trans named'
      cases list.unique rfl list'
      rfl
    | ellipsis => cases hdots
    | openEnded => cases hdots
  | openEnded named list =>
    cases other with
    | ellipsis =>
      cases hitems
      cases list
    | openEnded named' list' =>
      obtain ⟨htoken, hbehind⟩ := List.cons.inj h
      obtain ⟨htokens, hmarks⟩ := List.append_inj' hbehind rfl
      cases hitems
      cases hmarks
      subst htoken htokens
      cases named.symm.trans named'
      cases list.unique rfl list'
      rfl
    | bare => cases hdots
    | operands => cases hdots

/-- Where a statement ends is decided by its tokens alone. -/
theorem StatementTree.split_unique {front back rest others : List Token}
    (h : front ++ rest = back ++ others) (tree : StatementTree front) (other : StatementTree back)
    (hrest : EndsStatement rest) (hothers : EndsStatement others) :
    front = back ∧ rest = others := by
  obtain ⟨token, ident, behind, rfl, named, hread⟩ := tree.read
  obtain ⟨token', ident', behind', rfl, named', hread'⟩ := other.read
  obtain ⟨htoken, hbehind⟩ := List.cons.inj h
  subst htoken
  cases named.symm.trans named'
  have hfirst := hread .firstName rest hrest
  rw [show behind ++ rest = behind' ++ others from hbehind,
    hread' .firstName others hothers] at hfirst
  injection hfirst with hpair
  obtain rfl := congrArg Prod.snd hpair
  exact ⟨List.append_cancel_right h, rfl⟩

theorem StatementsTree.unique {tokens others : List Token} (h : tokens = others)
    (tree : StatementsTree tokens) (other : StatementsTree others) : HEq tree other := by
  induction tree generalizing others with
  | one statement =>
    cases other with
    | one statement' =>
      have hstatement := statement.unique h statement'
      subst h
      cases hstatement
      rfl
    | more statement' divides =>
      obtain ⟨-, hcolon⟩ := statement.split_unique ((List.append_nil _).trans h) statement'
        (.inl rfl) (.inr ⟨_, _, divides, rfl⟩)
      cases hcolon
  | more statement divides rest ih =>
    cases other with
    | one statement' =>
      obtain ⟨-, hcolon⟩ := statement.split_unique (h.trans (List.append_nil _).symm) statement'
        (.inr ⟨_, _, divides, rfl⟩) (.inl rfl)
      cases hcolon
    | more statement' divides' rest' =>
      obtain ⟨hfront, htail⟩ := statement.split_unique h statement' (.inr ⟨_, _, divides, rfl⟩)
        (.inr ⟨_, _, divides', rfl⟩)
      have hstatement := statement.unique hfront statement'
      obtain ⟨hcolon, hback⟩ := List.cons.inj htail
      have hrest := ih hback rest'
      subst hfront hcolon hback
      cases hstatement
      cases hrest
      rfl

/-- A statement is named by its first token, and neither of the signs that may follow a label
stands behind it. -/
theorem StatementTree.behind {tokens : List Token} (tree : StatementTree tokens) :
    ∃ token behind, tokens = token :: behind ∧ tree.statement.name.span = token.span ∧
      ∀ second ∈ behind.head?, second.kind ≠ .punct .colon ∧ second.kind ≠ .punct .assign := by
  cases tree with
  | @bare token => exact ⟨token, [], rfl, rfl, fun second hsecond => by cases hsecond⟩
  | @ellipsis token mark ident named dots =>
    refine ⟨token, [mark], rfl, rfl, fun second hsecond => ?_⟩
    cases hsecond
    rw [dots]
    decide
  | operands named list =>
    obtain ⟨first, others, rfl, hstart⟩ := list.starts
    refine ⟨_, _, rfl, rfl, fun second hsecond => ?_⟩
    cases hsecond
    constructor
    · intro hcolon
      cases hstart _ hcolon
    · intro hassign
      cases hstart _ hassign
  | openEnded named list =>
    obtain ⟨first, others, rfl, hstart⟩ := list.starts
    refine ⟨_, _, rfl, rfl, fun second hsecond => ?_⟩
    cases hsecond
    constructor
    · intro hcolon
      cases hstart _ hcolon
    · intro hassign
      cases hstart _ hassign

theorem StatementsTree.behind {tokens : List Token} (tree : StatementsTree tokens) :
    ∃ token behind, tokens = token :: behind ∧
      ∀ second ∈ behind.head?, second.kind ≠ .punct .assign := by
  cases tree with
  | one statement =>
    obtain ⟨token, behind, rfl, -, hbehind⟩ := statement.behind
    exact ⟨token, behind, rfl, fun second hsecond => (hbehind second hsecond).2⟩
  | more statement divides =>
    obtain ⟨token, behind, rfl, -, hbehind⟩ := statement.behind
    refine ⟨token, _, rfl, fun second hsecond => ?_⟩
    cases behind with
    | nil =>
      cases hsecond
      rw [divides]
      decide
    | cons first others => exact (hbehind second hsecond).2

/-- No equals sign stands behind the first name of a row of statements. -/
theorem StatementsTree.not_equate {tokens rest behind : List Token} {first sign : Token}
    (tree : StatementsTree tokens) (hrest : EndsStatement rest)
    (h : tokens ++ rest = first :: sign :: behind) (assigns : sign.kind = .punct .assign) :
    False := by
  obtain ⟨token, others, rfl, hothers⟩ := tree.behind
  cases others with
  | nil =>
    rcases hrest with rfl | ⟨colon, later, hcolon, rfl⟩
    · cases h
    · cases h
      cases hcolon.symm.trans assigns
  | cons second later =>
    cases h
    exact hothers sign rfl assigns

/-- A row of statements does not end in a colon. -/
theorem StatementsTree.not_trailing {tokens : List Token} {colon : Token}
    (ends : colon.kind = .punct .colon) (tree : StatementsTree tokens)
    (whole : StatementsTree (tokens ++ [colon])) : False := by
  obtain ⟨token, ident, behind, rfl, named, hread⟩ := tree.read
  obtain ⟨token', ident', behind', htokens, named', hread'⟩ := whole.read
  obtain ⟨rfl, rfl⟩ := List.cons.inj htokens
  cases named.symm.trans named'
  have hlimit : (token :: behind).length ≤ (token :: behind ++ [colon]).length := by simp
  have hplain := (hread' _ .firstName (Nat.le_refl _)).1
  have htrailing := (hread _ .firstName hlimit).2 colon ends
  injection hplain.symm.trans htrailing with hpair
  cases congrArg Prod.snd hpair

theorem LineTree.unique {tokens others : List Token} (h : tokens = others) (tree : LineTree tokens)
    (other : LineTree others) : HEq tree other := by
  cases tree with
  | equate named assigns value =>
    cases other with
    | equate named' assigns' value' =>
      cases h
      cases named.symm.trans named'
      cases value.expr_unique value'
      cases value.unique rfl value'
      rfl
    | statements list =>
      exact (list.not_equate (.inl rfl) ((List.append_nil _).trans h.symm) assigns).elim
    | trailing list ends =>
      exact (list.not_equate (.inr ⟨_, _, ends, rfl⟩) h.symm assigns).elim
  | statements list =>
    cases other with
    | equate named' assigns value' =>
      exact (list.not_equate (.inl rfl) ((List.append_nil _).trans h) assigns).elim
    | statements list' =>
      have hlist := list.unique h list'
      subst h
      cases hlist
      rfl
    | trailing list' ends =>
      subst h
      exact (list'.not_trailing ends list).elim
  | trailing list ends =>
    cases other with
    | equate named' assigns value' =>
      exact (list.not_equate (.inr ⟨_, _, ends, rfl⟩) h assigns).elim
    | statements list' =>
      subst h
      exact (list.not_trailing ends list').elim
    | trailing list' =>
      obtain ⟨htokens, hcolon⟩ := List.append_inj' h rfl
      have hlist := list.unique htokens list'
      cases hcolon
      subst htokens
      cases hlist
      rfl

/-! ## Lines -/

theorem crowdedLabel?_eq_none {offset : Nat} {token : Token} {ident : String}
    {tokens : List Token} (named : token.kind = .name ident) :
    crowdedLabel? offset (token :: tokens) = none ↔ FirstColumn offset (token :: tokens) := by
  obtain ⟨kind, span, text⟩ := token
  cases named
  cases tokens with
  | nil =>
    simp [crowdedLabel?, FirstColumn]
  | cons second rest =>
    simp only [crowdedLabel?, ite_eq_right_iff, reduceCtorEq, imp_false]
    constructor
    · intro h first other others heq hstart
      cases heq
      by_cases hcolon : second.kind = .punct .colon
      · exact .inl hcolon
      · by_cases hassign : second.kind = .punct .assign
        · exact .inr hassign
        · exact absurd ⟨hstart, hcolon, hassign⟩ h
    · rintro h ⟨hstart, hcolon, hassign⟩
      rcases h _ _ _ rfl hstart with hfound | hfound
      · exact hcolon hfound
      · exact hassign hfound

theorem placeLabel_none (offset : Nat) (statements : List Statement) :
    placeLabel offset statements none = .ok (.ofStatements offset statements) := by
  cases statements with
  | nil => rfl
  | cons first rest =>
    by_cases hstart : first.name.span.start = offset
    · simp [placeLabel, LineBody.ofStatements, hstart]
    · simp [placeLabel, LineBody.ofStatements, hstart]

theorem placeLabel_some {offset : Nat} {first : Statement} {rest : List Statement} {colon : Span}
    {body : LineBody} :
    placeLabel offset (first :: rest) (some colon) = .ok body ↔
      rest = [] ∧ first.name.span.start = offset ∧
        body = .ofStatements offset (first :: rest) := by
  by_cases hstart : first.name.span.start = offset
  · cases rest with
    | nil => simp [placeLabel, LineBody.ofStatements, hstart, eq_comm]
    | cons next others => simp [placeLabel, hstart]
  · simp [placeLabel, hstart]

/-- A colon may end a line whose statements are a sole label in the first column. -/
theorem StatementsTree.placeLabel_trailing {offset : Nat} {tokens : List Token} {colon : Token}
    {body : LineBody} (list : StatementsTree tokens)
    (hcolumn : FirstColumn offset (tokens ++ [colon])) :
    placeLabel offset list.statements (some colon.span) = .ok body ↔
      (∃ label, tokens = [label] ∧ label.span.start = offset) ∧
        body = .ofStatements offset list.statements := by
  cases list with
  | one statement =>
    obtain ⟨token, behind, rfl, hname, hbehind⟩ := statement.behind
    rw [StatementsTree.statements, placeLabel_some, hname]
    constructor
    · rintro ⟨-, hstart, rfl⟩
      refine ⟨?_, rfl⟩
      cases behind with
      | nil => exact ⟨token, rfl, hstart⟩
      | cons second others =>
        obtain ⟨hnotColon, hnotAssign⟩ := hbehind second rfl
        rcases hcolumn token second _ rfl hstart with hcolon | hassign
        · exact absurd hcolon hnotColon
        · exact absurd hassign hnotAssign
    · rintro ⟨⟨label, hlabel, hstart⟩, rfl⟩
      cases hlabel
      exact ⟨rfl, hstart, rfl⟩
  | more statement divides rest =>
    obtain ⟨token, behind, rfl, -, -⟩ := statement.behind
    rw [StatementsTree.statements, placeLabel_some]
    constructor
    · rintro ⟨hnil, -, -⟩
      cases rest with
      | one => cases hnil
      | more => cases hnil
    · rintro ⟨⟨label, hlabel, -⟩, -⟩
      cases behind with
      | nil => cases hlabel
      | cons second others => cases hlabel

theorem readBody_finds {source offset stop : Nat} {tokens : List Token} {body : LineBody}
    (hbody : readBody source offset stop tokens = .ok body)
    (hlabel : crowdedLabel? offset tokens = none) :
    ∃ tree : LineTree tokens, tree.InColumns offset ∧ tree.body offset = body := by
  unfold readBody at hbody
  split at hbody
  · rename_i ident span text _ _ rest
    have hcolumn := (crowdedLabel?_eq_none rfl).mp hlabel
    split at hbody
    · cases hbody
    · rename_i value hvalue
      cases hbody
      obtain ⟨used, hused, ⟨tree⟩⟩ := readOperand_finds hvalue
      rw [List.append_nil] at hused
      subst hused
      exact ⟨.equate rfl rfl tree, ⟨hcolumn, trivial⟩, rfl⟩
    · cases hbody
  · rename_i ident span text rest _
    have hcolumn := (crowdedLabel?_eq_none rfl).mp hlabel
    split at hbody
    · cases hbody
    · rename_i statements trailing hstatements
      have named : (Token.mk (.name ident) span text).kind = .name ident := rfl
      obtain ⟨used, list, rfl, hend⟩ := readStatements_finds named hstatements
      rcases hend with ⟨rfl, rfl⟩ | ⟨colon, rfl, hcolon, hused⟩
      · rw [placeLabel_none] at hbody
        cases hbody
        exact ⟨.statements list, ⟨hcolumn, trivial⟩, rfl⟩
      · rw [hused] at hcolumn ⊢
        obtain ⟨hsole, rfl⟩ := (list.placeLabel_trailing hcolumn).mp hbody
        exact ⟨.trailing list hcolon, ⟨hcolumn, hsole⟩, rfl⟩
  · cases hbody

theorem readBody_statements {source offset stop : Nat} {token : Token} {ident : String}
    {behind : List Token} {statements : List Statement} {trailing : Option Span}
    (named : token.kind = .name ident)
    (hbehind : ∀ second ∈ behind.head?, second.kind ≠ .punct .assign)
    (hread : readStatements (token :: behind).length .firstName ⟨ident, token.span⟩ behind =
      .ok (statements, trailing)) :
    readBody source offset stop (token :: behind) = placeLabel offset statements trailing := by
  obtain ⟨kind, span, text⟩ := token
  cases named
  unfold readBody
  split
  · rename_i heq
    cases heq
    exact absurd rfl (hbehind _ rfl)
  · rename_i heq
    cases heq
    rw [hread]
  · rename_i hnone
    exact absurd rfl (hnone _ _ _ _)

theorem LineTree.readBody {offset : Nat} {tokens : List Token} (tree : LineTree tokens)
    (hcolumns : tree.InColumns offset) (source stop : Nat) :
    readBody source offset stop tokens = .ok (tree.body offset) ∧
      crowdedLabel? offset tokens = none := by
  obtain ⟨hfirst, hlast⟩ := hcolumns
  cases tree with
  | @equate token sign ident tokens e named assigns value =>
    refine ⟨?_, (crowdedLabel?_eq_none named).mpr hfirst⟩
    have hread := value.readOperand .operand [] fun token htoken => by cases htoken
    rw [List.append_nil] at hread
    obtain ⟨kind, span, text⟩ := token
    obtain ⟨kind, other, sign⟩ := sign
    cases named
    cases assigns
    simp only [Asm65816.readBody, hread]
    rfl
  | statements list =>
    obtain ⟨token, ident, behind, htokens, named, hread⟩ := list.read
    obtain ⟨token', behind', htokens', hbehind⟩ := list.behind
    obtain ⟨rfl, rfl⟩ := List.cons.inj (htokens.symm.trans htokens')
    subst htokens
    refine ⟨?_, (crowdedLabel?_eq_none named).mpr hfirst⟩
    rw [readBody_statements named hbehind (hread _ .firstName (Nat.le_refl _)).1, placeLabel_none]
    rfl
  | @trailing colon _ list ends =>
    obtain ⟨token, ident, behind, htokens, named, hread⟩ := list.read
    have hplaced := list.placeLabel_trailing hfirst |>.mpr ⟨hlast, rfl⟩
    obtain ⟨label, hlabel, -⟩ := hlast
    obtain ⟨rfl, rfl⟩ := List.cons.inj (htokens.symm.trans hlabel)
    subst htokens
    refine ⟨?_, (crowdedLabel?_eq_none named).mpr hfirst⟩
    have hbehind : ∀ second ∈ [colon].head?, second.kind ≠ .punct .assign := by
      intro second hsecond
      cases hsecond
      rw [ends]
      decide
    have hlimit : [token].length ≤ (token :: [colon]).length := by simp
    exact (readBody_statements named hbehind ((hread _ .firstName hlimit).2 colon ends)).trans
      hplaced

theorem readLine_blank {location : Location} {text : List Char}
    (hlex : lexLine location.span.source location.span.start text = .ok []) :
    readLine location text = .ok none := by
  simp only [readLine, hlex, ok_bind]
  rfl

theorem readLine_eq_ok {location : Location} {text : List Char} {tokens : List Token}
    {last : Token} {result : Option Line}
    (hlex : lexLine location.span.source location.span.start text = .ok tokens)
    (hlast : tokens.getLast? = some last) :
    readLine location text = .ok result ↔
      crowdedLabel? location.span.start tokens = none ∧
        ∃ body, readBody location.span.source location.span.start last.span.stop tokens =
          .ok body ∧ result = some ⟨body, location⟩ := by
  simp only [readLine, hlex, ok_bind, hlast]
  cases crowdedLabel? location.span.start tokens with
  | some ident => simp
  | none =>
    cases readBody location.span.source location.span.start last.span.stop tokens with
    | error report => simp
    | ok body =>
      rw [pure_eq_ok]
      simp [eq_comm]

theorem LineTree.ne_nil {tokens : List Token} (tree : LineTree tokens) : tokens ≠ [] := by
  cases tree with
  | equate => simp
  | statements list =>
    obtain ⟨token, behind, rfl, -⟩ := list.behind
    simp
  | trailing => simp

/-- A line is read exactly when it is empty or the grammar derives its tokens within the rules of
the first column. What is read is what the derivation says, and there is one derivation. -/
theorem readLine_iff_derivable {location : Location} {text : List Char} {tokens : List Token}
    (hlex : lexLine location.span.source location.span.start text = .ok tokens) :
    (∀ result, readLine location text = .ok result ↔
      (tokens = [] ∧ result = none) ∨
        ∃ tree : LineTree tokens, tree.InColumns location.span.start ∧
          result = some ⟨tree.body location.span.start, location⟩) ∧
      Subsingleton (LineTree tokens) := by
  refine ⟨fun result => ?_, ⟨fun tree other => eq_of_heq (tree.unique rfl other)⟩⟩
  cases hlast : tokens.getLast? with
  | none =>
    obtain rfl := List.getLast?_eq_none_iff.mp hlast
    rw [readLine_blank hlex]
    constructor
    · intro h
      cases h
      exact .inl ⟨rfl, rfl⟩
    · rintro (⟨-, rfl⟩ | ⟨tree, -, -⟩)
      · rfl
      · exact absurd rfl tree.ne_nil
  | some last =>
    rw [readLine_eq_ok hlex hlast]
    constructor
    · rintro ⟨hlabel, body, hbody, rfl⟩
      obtain ⟨tree, hcolumns, rfl⟩ := readBody_finds hbody hlabel
      exact .inr ⟨tree, hcolumns, rfl⟩
    · rintro (⟨rfl, -⟩ | ⟨tree, hcolumns, rfl⟩)
      · cases hlast
      · obtain ⟨hbody, hlabel⟩ := tree.readBody hcolumns location.span.source last.span.stop
        exact ⟨hlabel, _, hbody, rfl⟩

/-- A line with a label, a prefix, a long name, a group and an open end. -/
theorem readLine_iff_derivable_statements :
    let text := "a: m #<1+2*&b, (c, -1), ... : d".toList
    let location : Location := ⟨"main", 1, ⟨0, 0, 31⟩, []⟩
    ∃ tokens, lexLine 0 0 text = .ok tokens ∧ ∃ tree : LineTree tokens,
      readLine location text = .ok (some ⟨tree.body 0, location⟩) ∧
        Subsingleton (LineTree tokens) := by
  intro text location
  obtain ⟨tokens, hlex⟩ := exists_of_isOk (show (lexLine 0 0 text).isOk = true by decide +kernel)
  obtain ⟨result, hresult, hsome⟩ := exists_ok_of_any Option.isSome
    (show (readLine location text).toOption.any Option.isSome = true by decide +kernel)
  have hgrammar : lexLine location.span.source location.span.start text = .ok tokens := hlex
  obtain ⟨hread, hunique⟩ := readLine_iff_derivable hgrammar
  rcases (hread result).mp hresult with ⟨-, rfl⟩ | ⟨tree, -, rfl⟩
  · cases hsome
  · exact ⟨tokens, hlex, tree, hresult, hunique⟩

end Asm65816
