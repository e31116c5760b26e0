import Asm65816.Proofs.RecasedTokens

/-!
# Lines in another letter case

A source whose words are written in another letter case is read as the same statements, each at its
place, with their names in that case. Labels, equates and operands stay as they are.
-/

namespace Asm65816

/-! ## Statements in another case -/

/-- A statement of a text in which the letters at the chosen bytes are in their other case. -/
def Statement.recased (chosen : Nat → Bool) (statement : Statement) : Statement :=
  { statement with
    name := ⟨recaseWord chosen statement.span.start statement.name.node, statement.name.span⟩ }

/-- The statements of a line. -/
def LineBody.row : LineBody → List Statement
  | equate _ _ => []
  | statements _ row => row

def LineBody.recased (chosen : Nat → Bool) : LineBody → LineBody
  | equate name value => equate name value
  | statements label row => statements label (row.map (Statement.recased chosen))

def Line.recased (chosen : Nat → Bool) (line : Line) : Line :=
  { line with body := line.body.recased chosen }

section Trees

variable {tokens : List Token}

theorem StatementTree.first (tree : StatementTree tokens) :
    ∃ token behind, tokens = token :: behind ∧ token.kind = .name tree.statement.name.node ∧
      token.span = tree.statement.name.span ∧
      tree.statement.span.start = tree.statement.name.span.start := by
  cases tree with
  | bare named | ellipsis named | operands named | openEnded named =>
    exact ⟨_, _, rfl, named, rfl, rfl⟩

/-- The statements of a row are named by some of its tokens, in their order. -/
theorem StatementsTree.names_sublist (tree : StatementsTree tokens) :
    (tree.statements.map fun statement =>
        (TokenKind.name statement.name.node, statement.name.span)).Sublist
      (tokens.map fun token => (token.kind, token.span)) := by
  induction tree with
  | one statement =>
    obtain ⟨token, behind, rfl, hkind, hspan, -⟩ := statement.first
    rw [List.map_cons, hkind, hspan]
    exact (List.nil_sublist _).cons_cons _
  | more statement divides rest ih =>
    obtain ⟨token, behind, rfl, hkind, hspan, -⟩ := statement.first
    rw [StatementsTree.statements, List.map_cons, List.cons_append, List.map_cons, hkind, hspan,
      List.map_append, List.map_cons]
    exact ((ih.cons _).trans (List.sublist_append_right _ _)).cons_cons _

/-- A statement starts with its name. -/
theorem StatementsTree.name_start (tree : StatementsTree tokens) :
    ∀ statement ∈ tree.statements, statement.span.start = statement.name.span.start := by
  induction tree with
  | one statement =>
    obtain ⟨-, -, -, -, -, hstart⟩ := statement.first
    exact List.forall_mem_singleton.mpr hstart
  | more statement divides rest ih =>
    obtain ⟨-, -, -, -, -, hstart⟩ := statement.first
    exact List.forall_mem_cons.mpr ⟨hstart, ih⟩

/-- The statements of a line are some of those of its derivation. -/
theorem LineBody.row_sublist (offset : Nat) (statements : List Statement) :
    (LineBody.ofStatements offset statements).row.Sublist statements := by
  cases statements with
  | nil => exact List.Sublist.slnil
  | cons first rest =>
    rw [ofStatements]
    split
    · exact List.sublist_cons_self first rest
    · exact List.Sublist.refl _

theorem LineTree.names_sublist (tree : LineTree tokens) (offset : Nat) :
    ((tree.body offset).row.map fun statement =>
        (TokenKind.name statement.name.node, statement.name.span)).Sublist
      (tokens.map fun token => (token.kind, token.span)) := by
  cases tree with
  | equate => exact List.nil_sublist _
  | statements list =>
    exact ((LineBody.row_sublist offset _).map _).trans list.names_sublist
  | trailing list ends =>
    refine ((LineBody.row_sublist offset _).map _).trans (list.names_sublist.trans ?_)
    rw [List.map_append]
    exact List.sublist_append_left _ _

/-- The marked tokens are among those that name the statements. -/
def StatementsTree.MarksNames (marked : Token → Prop) : {tokens : List Token} →
    StatementsTree tokens → Prop
  | tokens, .one _ => ∀ token ∈ tokens.tail, ¬marked token
  | _, @more colon front _ _ _ rest =>
    (∀ token ∈ front.tail, ¬marked token) ∧ ¬marked colon ∧ rest.MarksNames marked

/-- Tokens that are found by the spans of the names of statements are those names. -/
theorem StatementsTree.marksNames {marked : Token → Prop} (tree : StatementsTree tokens)
    (hdistinct : (tokens.map Token.span).Nodup)
    (hnamed : ∀ token ∈ tokens, marked token →
      ∃ statement ∈ tree.statements, statement.name.span = token.span) :
    tree.MarksNames marked := by
  induction tree with
  | one statement =>
    obtain ⟨first, behind, rfl, -, hspan, -⟩ := statement.first
    intro token htoken hmarked
    obtain ⟨found, hfound, hname⟩ := hnamed token (List.mem_cons_of_mem _ htoken) hmarked
    obtain rfl := List.mem_singleton.mp hfound
    exact (List.nodup_cons.mp hdistinct).1
      (List.mem_map.mpr ⟨token, htoken, hname.symm.trans hspan.symm⟩)
  | @more colon front back statement divides rest ih =>
    obtain ⟨first, behind, rfl, -, hspan, -⟩ := statement.first
    have hspans (found : Statement) (hfound : found ∈ rest.statements) :
        found.name.span ∈ back.map Token.span := by
      have hmem := rest.names_sublist.mem (List.mem_map_of_mem hfound)
      obtain ⟨token, htoken, heq⟩ := List.mem_map.mp hmem
      exact List.mem_map.mpr ⟨token, htoken, congrArg Prod.snd heq⟩
    rw [List.map_append, List.map_cons, List.map_cons, List.cons_append, List.nodup_cons,
      List.mem_append, List.mem_cons] at hdistinct
    obtain ⟨hfirst, hothers⟩ := hdistinct
    obtain ⟨-, hlater, hdisjoint⟩ := List.nodup_append.mp hothers
    obtain ⟨hcolon, hback⟩ := List.nodup_cons.mp hlater
    refine ⟨fun token htoken hmarked => ?_, fun hmarked => ?_,
      ih hback fun token htoken hmarked => ?_⟩
    · obtain ⟨found, hfound, hname⟩ :=
        hnamed token (List.mem_append_left _ (List.mem_cons_of_mem _ htoken)) hmarked
      rcases List.mem_cons.mp hfound with rfl | hfound
      · exact hfirst (.inl (List.mem_map.mpr ⟨token, htoken, hname.symm.trans hspan.symm⟩))
      · exact hdisjoint _ (List.mem_map_of_mem htoken) _
          (List.mem_cons_of_mem _ (hname ▸ hspans found hfound)) rfl
    · obtain ⟨found, hfound, hname⟩ :=
        hnamed colon (List.mem_append_right _ List.mem_cons_self) hmarked
      rcases List.mem_cons.mp hfound with rfl | hfound
      · exact hfirst (.inr (.inl (hspan.trans hname)))
      · exact hcolon (hname ▸ hspans found hfound)
    · obtain ⟨found, hfound, hname⟩ := hnamed token
        (List.mem_append_right _ (List.mem_cons_of_mem _ htoken)) hmarked
      rcases List.mem_cons.mp hfound with rfl | hfound
      · exact absurd (.inr (.inr (List.mem_map.mpr ⟨token, htoken, hname.symm.trans hspan.symm⟩)))
          hfirst
      · exact ⟨found, hfound, hname⟩

/-- Where at most the first token is marked, no token is marked behind another one. -/
theorem isChain_of_unmarked {marked : Token → Prop} {behind : List Token}
    (h : ∀ token ∈ behind, ¬marked token) (first : Token) :
    (first :: behind).IsChain fun before token => marked token → before.kind = .punct .colon := by
  induction behind generalizing first with
  | nil => exact .singleton first
  | cons next others ih =>
    obtain ⟨hnext, hothers⟩ := List.forall_mem_cons.mp h
    exact .cons_cons (fun hmarked => absurd hmarked hnext) (ih hothers next)

/-- The names of statements stand at the front of a row or behind colons. -/
theorem StatementsTree.MarksNames.isChain {marked : Token → Prop} {tree : StatementsTree tokens}
    (h : tree.MarksNames marked) :
    tokens.IsChain fun before token => marked token → before.kind = .punct .colon := by
  induction tree with
  | one statement =>
    obtain ⟨first, behind, rfl, -⟩ := statement.first
    exact isChain_of_unmarked h first
  | @more colon front back statement divides rest ih =>
    obtain ⟨first, behind, rfl, -⟩ := statement.first
    obtain ⟨hbehind, hcolon, hback⟩ := h
    refine List.isChain_append.mpr ⟨isChain_of_unmarked hbehind first, ?_, ?_⟩
    · exact List.isChain_cons.mpr ⟨fun token htoken hmarked => divides, ih hback⟩
    · intro last hlast token htoken hmarked
      cases htoken
      exact absurd hmarked hcolon

section Recased

variable {chosen : Nat → Bool} {offset : Nat}

theorem Token.recased_punct {token : Token} {sign : Punct} (h : token.kind = .punct sign) :
    (token.recased chosen).kind = .punct sign := by
  rw [Token.recased, h]
  rfl

theorem Token.recased_name {token : Token} {ident : String} (h : token.kind = .name ident) :
    (token.recased chosen).kind = .name (recaseWord chosen token.span.start ident) := by
  rw [Token.recased, h]
  rfl

theorem map_recased_eq_self (h : ∀ token ∈ tokens, token.recased chosen = token) :
    tokens.map (Token.recased chosen) = tokens :=
  (List.map_congr_left h).trans (List.map_id' tokens)

/-- A row whose name is in another case derives the statement of that name. -/
theorem StatementTree.recased (tree : StatementTree tokens)
    (hbehind : ∀ token ∈ tokens.tail, token.recased chosen = token) :
    ∃ tree' : StatementTree (tokens.map (Token.recased chosen)),
      tree'.statement = tree.statement.recased chosen := by
  cases tree with
  | bare named => exact ⟨.bare (Token.recased_name named), rfl⟩
  | ellipsis named dots =>
    exact ⟨.ellipsis (Token.recased_name named) (Token.recased_punct dots), rfl⟩
  | operands named list =>
    rw [List.tail_cons] at hbehind
    rw [List.map_cons, map_recased_eq_self hbehind]
    exact ⟨.operands (Token.recased_name named) list, rfl⟩
  | openEnded named list divides dots =>
    rw [List.tail_cons] at hbehind
    rw [List.map_cons, map_recased_eq_self hbehind]
    exact ⟨.openEnded (Token.recased_name named) list divides dots, rfl⟩

/-- A row whose names are in another case derives the statements of those names. -/
theorem StatementsTree.MarksNames.recased {tree : StatementsTree tokens}
    (h : tree.MarksNames (Token.IsChosen chosen))
    (hfree : ∀ token ∈ tokens, ¬token.IsChosen chosen → token.recased chosen = token) :
    ∃ tree' : StatementsTree (tokens.map (Token.recased chosen)),
      tree'.statements = tree.statements.map (Statement.recased chosen) := by
  induction tree with
  | one statement =>
    obtain ⟨tree', hstatement⟩ := statement.recased fun token htoken =>
      hfree token (List.mem_of_mem_tail htoken) (h token htoken)
    exact ⟨.one tree', congrArg (fun statement => [statement]) hstatement⟩
  | @more colon front back statement divides rest ih =>
    obtain ⟨hbehind, -, hback⟩ := h
    obtain ⟨first, hfirst⟩ := statement.recased fun token htoken =>
      hfree token (List.mem_append_left _ (List.mem_of_mem_tail htoken)) (hbehind token htoken)
    obtain ⟨others, hothers⟩ := ih hback fun token htoken =>
      hfree token (List.mem_append_right _ (List.mem_cons_of_mem _ htoken))
    rw [List.map_append, List.map_cons]
    refine ⟨.more first (Token.recased_punct divides) others, ?_⟩
    rw [StatementsTree.statements, hfirst, hothers]
    rfl

theorem FirstColumn.recased (h : FirstColumn offset tokens) :
    FirstColumn offset (tokens.map (Token.recased chosen)) := by
  intro first second rest htokens hstart
  obtain ⟨first', others, rfl, rfl, hothers⟩ := List.map_eq_cons_iff.mp htokens
  obtain ⟨second', rest', rfl, rfl, -⟩ := List.map_eq_cons_iff.mp hothers
  rcases h first' second' rest' rfl hstart with hcolon | hassign
  · exact .inl (Token.recased_punct hcolon)
  · exact .inr (Token.recased_punct hassign)

variable (hdistinct : (tokens.map Token.span).Nodup)
  (hfree : ∀ token ∈ tokens, ¬token.IsChosen chosen → token.recased chosen = token)

include hdistinct hfree

/-- A label keeps its letter case when only the names behind it are chosen. -/
theorem ofStatements_recased {tree : StatementsTree tokens}
    (hnamed : ∀ token ∈ tokens, token.IsChosen chosen →
      ∃ statement ∈ (LineBody.ofStatements offset tree.statements).row,
        statement.name.span = token.span) :
    LineBody.ofStatements offset (tree.statements.map (Statement.recased chosen)) =
      (LineBody.ofStatements offset tree.statements).recased chosen := by
  have hnames := tree.names_sublist
  have hstarts := tree.name_start
  cases hstatements : tree.statements with
  | nil => rfl
  | cons first rest =>
    rw [hstatements] at hnamed hnames hstarts
    have hspan : (first.recased chosen).name.span = first.name.span := rfl
    rw [List.map_cons, LineBody.ofStatements, LineBody.ofStatements, hspan]
    by_cases hlabel : first.name.span.start = offset
    · rw [if_pos hlabel, if_pos hlabel]
      rw [LineBody.ofStatements, if_pos hlabel] at hnamed
      obtain ⟨token, htoken, hpair⟩ := List.mem_map.mp (hnames.mem List.mem_cons_self)
      obtain ⟨hkind, hplace⟩ := Prod.mk.inj hpair
      have hunchosen : ¬token.IsChosen chosen := by
        intro hchosen
        obtain ⟨found, hfound, hname⟩ := hnamed token htoken hchosen
        have hspans : ((first :: rest).map fun statement => statement.name.span).Nodup := by
          have hsub := hnames.map Prod.snd
          rw [List.map_map, List.map_map] at hsub
          exact hdistinct.sublist hsub
        refine (List.nodup_cons.mp hspans).1 (List.mem_map.mpr ⟨found, hfound, ?_⟩)
        exact hname.trans hplace
      have hsame := congrArg Token.kind (hfree token htoken hunchosen)
      rw [Token.recased_name hkind, hkind, hplace, ← hstarts first List.mem_cons_self] at hsame
      have hname : (first.recased chosen).name = first.name :=
        congrArg (fun ident => Spanned.mk ident first.name.span) (TokenKind.name.inj hsame)
      rw [hname]
      rfl
    · rw [if_neg hlabel, if_neg hlabel]
      rfl

/-- A line whose statements have their names in another case derives those statements. -/
theorem LineTree.recased (tree : LineTree tokens) (hcolumns : tree.InColumns offset)
    (hnamed : ∀ token ∈ tokens, token.IsChosen chosen →
      ∃ statement ∈ (tree.body offset).row, statement.name.span = token.span) :
    (∃ tree' : LineTree (tokens.map (Token.recased chosen)), tree'.InColumns offset ∧
        tree'.body offset = (tree.body offset).recased chosen) ∧
      tokens.IsChain fun before token =>
        token.IsChosen chosen → before.kind = .punct .colon := by
  -- Where the line has no statements, nothing is chosen.
  have hnone (hrow : (tree.body offset).row = []) :
      (∃ tree' : LineTree (tokens.map (Token.recased chosen)), tree'.InColumns offset ∧
        tree'.body offset = (tree.body offset).recased chosen) ∧
      tokens.IsChain fun before token =>
        token.IsChosen chosen → before.kind = .punct .colon := by
    have hunchosen : ∀ token ∈ tokens, ¬token.IsChosen chosen := by
      intro token htoken hchosen
      obtain ⟨statement, hstatement, -⟩ := hnamed token htoken hchosen
      rw [hrow] at hstatement
      cases hstatement
    rw [map_recased_eq_self fun token htoken => hfree token htoken (hunchosen token htoken)]
    refine ⟨⟨tree, hcolumns, ?_⟩, ?_⟩
    · cases hbody : tree.body offset with
      | equate => rfl
      | statements label row =>
        rw [hbody] at hrow
        obtain rfl : row = [] := hrow
        rfl
    · cases tokens with
      | nil => exact .nil
      | cons first behind =>
        exact isChain_of_unmarked (List.forall_mem_cons.mp hunchosen).2 first
  obtain ⟨hfirst, hlast⟩ := hcolumns
  cases tree with
  | equate => exact hnone rfl
  | statements list =>
    have hmarks := list.marksNames hdistinct fun token htoken hchosen => by
      obtain ⟨statement, hstatement, hname⟩ := hnamed token htoken hchosen
      exact ⟨statement, (LineBody.row_sublist offset _).mem hstatement, hname⟩
    obtain ⟨list', hstatements⟩ := hmarks.recased hfree
    refine ⟨⟨.statements list', ⟨hfirst.recased, trivial⟩, ?_⟩, hmarks.isChain⟩
    rw [LineTree.body, hstatements]
    exact ofStatements_recased hdistinct hfree hnamed
  | trailing list ends =>
    obtain ⟨label, rfl, hstart⟩ := hlast
    refine hnone ?_
    cases hstatements : list.statements with
    | nil =>
      rw [LineTree.body, hstatements]
      rfl
    | cons first rest =>
      have hsub := list.names_sublist
      rw [hstatements] at hsub
      obtain rfl : rest = [] := by
        have hlength := hsub.length_le
        simpa using hlength
      have hspan := congrArg Prod.snd (List.mem_singleton.mp (hsub.mem List.mem_cons_self))
      have hcolumn : first.name.span.start = offset := (congrArg Span.start hspan).trans hstart
      rw [LineTree.body, hstatements, LineBody.ofStatements, if_pos hcolumn]
      rfl

end Recased

end Trees

/-! ## Sources in another case -/

/-- A byte lies in the name of a statement of the line, and the name is a word. -/
def Line.HasWordAt (line : Line) (place : Nat) : Prop :=
  ∃ statement ∈ line.body.row,
    isWord statement.name.node = true ∧ statement.name.span.Covers place

/-- A byte lies in the name of a statement of the source, and the name is a word. -/
def SourceLines.HasWordAt (read : SourceLines) (place : Nat) : Prop :=
  ∃ line ∈ read.lines, line.HasWordAt place

/-- Tokens of a line have different spans, and no byte lies in two of them. -/
theorem lexLine_distinct {source offset : Nat} {text : List Char} {tokens : List Token}
    (h : lexLine source offset text = .ok tokens) :
    (tokens.map Token.span).Nodup ∧
      ∀ token ∈ tokens, ∀ other ∈ tokens, ∀ place,
        token.span.Covers place → other.span.Covers place → token = other := by
  have hcover := LineCover.of_cutInto (cutInto_cutLine text) (lexLine_eq_ok.mp h)
  constructor
  · refine List.pairwise_map.mpr (hcover.ordered.imp_of_mem ?_)
    intro token other htoken _ hordered hspan
    have hlt := (hcover.slices token htoken).1
    rw [hspan] at hlt hordered
    omega
  · have hapart : tokens.Pairwise fun token other => ∀ place,
        token.span.Covers place → other.span.Covers place → token = other := by
      refine hcover.ordered.imp fun {token other} hordered place hfirst hsecond => ?_
      have hstop := hfirst.2
      have hstart := hsecond.1
      omega
    have hsymmetric : Std.Symm fun token other : Token => ∀ place,
        token.span.Covers place → other.span.Covers place → token = other :=
      ⟨fun _ _ h place hfirst hsecond => (h place hsecond hfirst).symm⟩
    intro token htoken other hother
    exact List.Pairwise.forall_of_forall (fun _ _ _ _ _ => rfl) hapart htoken hother

/-- A line whose words are in another case is read as the same line with its words in that case. -/
theorem readLine_recased {chosen : Nat → Bool} {location : Location} {text : List Char}
    {result : Option Line} (hread : readLine location text = .ok result)
    (hwords : ∀ place, location.span.start ≤ place →
      place < location.span.start + byteLength text → chosen place = true →
        ∃ line ∈ result, line.HasWordAt place) :
    readLine location (recase chosen location.span.start text) =
      .ok (result.map (Line.recased chosen)) := by
  obtain ⟨tokens, hlex, -⟩ := bind_eq_ok.mp hread
  cases hlast : tokens.getLast? with
  | none =>
    obtain rfl := List.getLast?_eq_none_iff.mp hlast
    cases (readLine_blank hlex).symm.trans hread
    have hsame : recase chosen location.span.start text = text := by
      refine recase_eq_self fun place hlow hhigh => Bool.eq_false_iff.mpr fun hchosen => ?_
      obtain ⟨line, hline, -⟩ := hwords place hlow hhigh hchosen
      cases hline
    rw [hsame]
    exact hread
  | some last =>
    obtain ⟨hlabel, body, hbody, rfl⟩ := (readLine_eq_ok hlex hlast).mp hread
    obtain ⟨tree, hcolumns, rfl⟩ := readBody_finds hbody hlabel
    have hlexes := lexLine_iff_lexes.mp hlex
    obtain ⟨hdistinct, hunique⟩ := lexLine_distinct hlex
    have hcovered : ∀ place, location.span.start ≤ place →
        place < location.span.start + byteLength text → chosen place = true →
          ∃ statement ∈ (tree.body location.span.start).row, isWord statement.name.node = true ∧
            ∃ token ∈ tokens, token.kind = .name statement.name.node ∧
              token.span = statement.name.span ∧ token.span.Covers place := by
      intro place hlow hhigh hchosen
      obtain ⟨line, hline, statement, hstatement, hword, hcovers⟩ :=
        hwords place hlow hhigh hchosen
      cases hline
      obtain ⟨token, htoken, hpair⟩ := List.mem_map.mp
        ((tree.names_sublist location.span.start).mem (List.mem_map_of_mem hstatement))
      obtain ⟨hkind, hspan⟩ := Prod.mk.inj hpair
      exact ⟨statement, hstatement, hword, token, htoken, hkind, hspan, hspan ▸ hcovers⟩
    have hnamed : ∀ token ∈ tokens, token.IsChosen chosen →
        ∃ statement ∈ (tree.body location.span.start).row, isWord statement.name.node = true ∧
          token.kind = .name statement.name.node ∧ statement.name.span = token.span := by
      rintro token htoken ⟨place, hcovers, hchosen⟩
      obtain ⟨-, hlow, -, hhigh⟩ := (lexLine_within hlex).1 token htoken
      obtain ⟨statement, hstatement, hword, found, hfound, hkind, hspan, hplace⟩ :=
        hcovered place (hlow.trans hcovers.1) (hcovers.2.trans_le hhigh) hchosen
      obtain rfl := hunique token htoken found hfound place hcovers hplace
      exact ⟨statement, hstatement, hword, hkind, hspan.symm⟩
    obtain ⟨⟨tree', hcolumns', hbody'⟩, hplaced⟩ :=
      tree.recased hdistinct hlexes.recased_eq_self hcolumns fun token htoken hchosen => by
        obtain ⟨statement, hstatement, -, -, hspan⟩ := hnamed token htoken hchosen
        exact ⟨statement, hstatement, hspan⟩
    have hlex' := lexLine_iff_lexes.mpr (hlexes.recased hplaced
      (fun token htoken hchosen => by
        obtain ⟨statement, -, hword, hkind, -⟩ := hnamed token htoken hchosen
        exact ⟨_, hkind, hword⟩)
      fun place hlow hhigh hchosen => by
        obtain ⟨-, -, -, token, htoken, -, -, hcovers⟩ := hcovered place hlow hhigh hchosen
        exact ⟨token, htoken, hcovers⟩)
    have hlast' : (tokens.map (Token.recased chosen)).getLast? = some (last.recased chosen) := by
      rw [List.getLast?_map, hlast]
      rfl
    obtain ⟨hreads, hlabel'⟩ := tree'.readBody hcolumns' location.span.source last.span.stop
    refine (readLine_eq_ok hlex' hlast').mpr ⟨hlabel', _, hreads, ?_⟩
    rw [hbody']
    rfl

theorem isBlank_recaseChar (choice : Bool) (c : Char) :
    isBlank (recaseChar choice c) = isBlank c := by
  have hcaseless : CharCaseless isBlank := .of_ascii (by decide)
  rw [← hcaseless, toUpper_recaseChar, hcaseless]

theorem trimEnd_recase (chosen : Nat → Bool) (offset : Nat) (text : List Char) :
    trimEnd (recase chosen offset text) = recase chosen offset (trimEnd text) := by
  induction text using List.reverseRecOn with
  | nil => rfl
  | append_singleton front c ih =>
    have hend (front : List Char) (c : Char) :
        trimEnd (front ++ [c]) = if isBlank c then trimEnd front else front ++ [c] := by
      rw [trimEnd, List.reverse_append, List.reverse_singleton, List.singleton_append,
        List.dropWhile_cons, trimEnd]
      split
      · rfl
      · rw [List.reverse_cons, List.reverse_reverse]
    rw [recase_append, recase, recase, hend, hend, isBlank_recaseChar, ih]
    split
    · rfl
    · rw [recase_append]
      rfl

/-- The words of a line stand within it. -/
theorem readLine_hasWordAt {location : Location} {text : List Char} {line : Line}
    (h : readLine location text = .ok (some line)) {place : Nat} (hword : line.HasWordAt place) :
    location.span.start ≤ place ∧ place < location.span.start + byteLength text := by
  obtain ⟨statement, hstatement, -, hstart, hstop⟩ := hword
  have hspan : statement.name.span ∈ line.body.spans := by
    cases hbody : line.body with
    | equate =>
      rw [hbody] at hstatement
      cases hstatement
    | statements label row =>
      rw [hbody] at hstatement
      exact List.mem_append_right _ (List.mem_flatMap.mpr ⟨statement, hstatement, by simp⟩)
  obtain ⟨-, hlow, -, hhigh⟩ := (readLine_within h).1 _ hspan
  omega

section Sources

variable {chosen : Nat → Bool} {source : Nat} {file : String} {includedFrom : List IncludeSite}

/-- Lines whose words are in another case are read as the same lines with their words in that
case. -/
theorem readLines_recased {number offset : Nat} {texts : List (List Char)}
    {found : List (Option Line)}
    (hread : readLines source file includedFrom number offset texts = found.map .ok)
    (hwords : ∀ place, offset ≤ place → chosen place = true →
      ∃ line, some line ∈ found ∧ line.HasWordAt place) :
    readLines source file includedFrom number offset (recaseLines chosen offset texts) =
      (found.map (Option.map (Line.recased chosen))).map .ok := by
  induction texts generalizing number offset found with
  | nil =>
    obtain rfl := List.map_eq_nil_iff.mp hread.symm
    rfl
  | cons text rest ih =>
    obtain ⟨first, others, rfl, hfirst, hothers⟩ := List.map_eq_cons_iff.mp hread.symm
    have hbehind {line : Line} (hline : some line ∈ others) {place : Nat}
        (hword : line.HasWordAt place) : offset + byteLength text + 1 ≤ place := by
      have hmem : .ok (some line) ∈
          readLines source file includedFrom (number + 1) (offset + byteLength text + 1) rest := by
        rw [← hothers]
        exact List.mem_map_of_mem hline
      obtain ⟨before, text', after, start, -, rfl, hline⟩ := exists_of_mem_readLines hmem
      have hlow := (readLine_hasWordAt hline.symm hword).1
      exact Nat.le_trans (Nat.le_add_right _ _) hlow
    have hrecased := readLine_recased hfirst.symm fun place hlow hhigh hchosen => by
      obtain ⟨line, hline, hword⟩ := hwords place hlow hchosen
      rcases List.mem_cons.mp hline with hline | hline
      · exact ⟨line, hline.symm, hword⟩
      · exact absurd hhigh (Nat.not_lt_of_le (Nat.le_of_succ_le (hbehind hline hword)))
    have hrest := ih hothers.symm fun place hlow hchosen => by
      obtain ⟨line, hline, hword⟩ := hwords place (by omega) hchosen
      rcases List.mem_cons.mp hline with rfl | hline
      · have hhigh := (readLine_hasWordAt hfirst.symm hword).2
        exact absurd hlow (Nat.not_le_of_lt (Nat.lt_succ_of_lt hhigh))
      · exact ⟨line, hline, hword⟩
    rw [recaseLines, readLines, trimEnd_recase, byteLength_recase, byteLength_recase, hrest]
    exact congrArg (· :: _) hrecased

/-- A source whose words are in another case is read as the same lines with their words in that
case, and with the same warnings. -/
theorem readSource_recased {text : String} {read : SourceLines}
    (hread : readSource source file text includedFrom = .ok read)
    (hwords : ∀ place, chosen place = true → read.HasWordAt place) :
    readSource source file (String.ofList (recase chosen 0 text.toList)) includedFrom =
      .ok ⟨read.lines.map (Line.recased chosen), read.warnings⟩ := by
  obtain ⟨found, hfound, hlines⟩ := readSource_lines.mp ⟨read, hread, rfl⟩
  have hrecased := readLines_recased hfound fun place _ hchosen => by
    obtain ⟨line, hline, hword⟩ := hwords place hchosen
    rw [← hlines, List.mem_filterMap] at hline
    obtain ⟨result, hresult, hsome⟩ := hline
    obtain rfl : result = some line := hsome
    exact ⟨line, hresult, hword⟩
  rw [← codeLines_recase] at hrecased
  obtain ⟨read', hread', hlines'⟩ := readSource_lines.mpr ⟨_, hrecased, rfl⟩
  rw [hread']
  have hwarnings : read'.warnings = read.warnings := by
    rw [(readSource_eq_ok.mp hread').2, (readSource_eq_ok.mp hread).2]
    exact commentWarnings_recase chosen source text
  obtain ⟨lines, warnings⟩ := read'
  obtain rfl : warnings = read.warnings := hwarnings
  rw [List.filterMap_map] at hlines'
  rw [← hlines, List.map_filterMap]
  exact congrArg (fun lines => Except.ok (SourceLines.mk lines read.warnings)) hlines'

end Sources

end Asm65816
