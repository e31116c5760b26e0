import Mathlib.Data.List.Forall2
import Asm65816.Proofs.LineDerivations
import Asm65816.Proofs.SourceLiterals

/-!
# What a line says wherever it stands

Tokens, statements and lines carry spans. Apart from these spans, what a line says depends on its
text alone: read at any other place, in any other source, it says the same.
-/

namespace Asm65816

/-! ## Leaving spans out -/

def Spanned.unplaced {α : Type} (item : Spanned α) : Spanned α := ⟨item.node, default⟩

def Statement.unplaced (statement : Statement) : Statement :=
  { statement with name := statement.name.unplaced, span := default }

/-- What a line says, without the places of its parts. -/
def LineBody.unplaced : LineBody → LineBody
  | .equate name value => .equate name.unplaced value
  | .statements label row =>
    .statements (label.map Spanned.unplaced) (row.map Statement.unplaced)

def Line.content (line : Line) : LineBody := line.body.unplaced

/-- Lines that say the same define the same equate, or have the same label and statements. -/
theorem Line.content_eq {first second : Line} (h : second.content = first.content) :
    (∃ name name' value, first.body = .equate name value ∧ second.body = .equate name' value ∧
      name'.node = name.node) ∨
    ∃ label label' row row', first.body = .statements label row ∧
      second.body = .statements label' row' ∧
      label'.map Spanned.unplaced = label.map Spanned.unplaced ∧
      row'.map Statement.unplaced = row.map Statement.unplaced := by
  obtain ⟨body, location⟩ := first
  obtain ⟨body', location'⟩ := second
  cases body with
  | equate name value =>
    cases body' with
    | equate name' value' =>
      obtain ⟨hname, rfl⟩ := LineBody.equate.inj h
      exact .inl ⟨name, name', value', rfl, rfl, (Spanned.mk.inj hname).1⟩
    | statements label' row' => cases h
  | statements label row =>
    cases body' with
    | equate name' value' => cases h
    | statements label' row' =>
      obtain ⟨hlabel, hrow⟩ := LineBody.statements.inj h
      exact .inr ⟨label, label', row, row', rfl, rfl, hlabel, hrow⟩

/-! ## Tokens -/

/-- Tokens of two lines that start at the given offsets, equal but for their places. -/
structure Token.Matches (offset offset' : Nat) (token token' : Token) : Prop where
  kind : token'.kind = token.kind
  start : token'.span.start = offset' ↔ token.span.start = offset

/-- Pieces of two lines that are both tokens and match, or both none. -/
inductive PieceMatches (offset offset' : Nat) :
    Except Diagnostic Token → Except Diagnostic Token → Prop where
  | token {token token' : Token} (h : token.Matches offset offset' token') :
      PieceMatches offset offset' (.ok token) (.ok token')
  | invalid (report report' : Diagnostic) :
      PieceMatches offset offset' (.error report) (.error report')

theorem scan_matches (source source' offset offset' : Nat) (text : List Char)
    (passed pending : Nat) :
    List.Forall₂ (PieceMatches offset offset') (scan source (offset + passed) pending text)
      (scan source' (offset' + passed) pending text) := by
  induction text generalizing passed pending with
  | nil => exact .nil
  | cons c rest ih =>
    cases pending with
    | succ count =>
      rw [scan, scan, Nat.add_assoc, Nat.add_assoc]
      exact ih _ _
    | zero =>
      have hothers := ih (passed + c.utf8Size) ((nextPiece (c :: rest)).1 - 1)
      rw [← Nat.add_assoc, ← Nat.add_assoc] at hothers
      rw [scan, scan]
      dsimp only
      cases (nextPiece (c :: rest)).2 with
      | skipped => exact hothers
      | token kind => exact .cons (.token ⟨rfl, by simp⟩) hothers
      | invalid => exact .cons (.invalid _ _) hothers

theorem lexLine_matches {source offset : Nat} {text : List Char} {tokens : List Token}
    (h : lexLine source offset text = .ok tokens) (source' offset' : Nat) :
    ∃ tokens', lexLine source' offset' text = .ok tokens' ∧
      List.Forall₂ (Token.Matches offset offset') tokens tokens' := by
  have hall := scan_matches source source' offset offset' text 0 0
  rw [Nat.add_zero, Nat.add_zero] at hall
  unfold lexLine at h ⊢
  generalize scan source offset 0 text = first at h hall
  generalize scan source' offset' 0 text = second at hall
  have hboth : failures first = [] → failures second = [] ∧
      List.Forall₂ (Token.Matches offset offset') (first.filterMap Except.toOption)
        (second.filterMap Except.toOption) := by
    clear h
    intro hnone
    induction hall with
    | nil => exact ⟨rfl, .nil⟩
    | cons hpiece rest ih =>
      cases hpiece with
      | token htoken =>
        obtain ⟨hsecond, hrest⟩ := ih hnone
        exact ⟨hsecond, .cons htoken hrest⟩
      | invalid => cases hnone
  cases hnone : failures first with
  | nil =>
    simp only [hnone, Except.ok.injEq] at h
    subst h
    obtain ⟨hsecond, htokens⟩ := hboth hnone
    exact ⟨_, by simp only [hsecond], htokens⟩
  | cons report reports => simp only [hnone, reduceCtorEq] at h

/-! ## Derivations -/

/-- Tokens of the same kinds, one for one. -/
abbrev SameKinds (tokens others : List Token) : Prop :=
  others.map Token.kind = tokens.map Token.kind

mutual

theorem OperandTree.sameKinds {tokens : List Token} {e : Expr} :
    OperandTree tokens e → ∀ {others : List Token}, SameKinds tokens others →
      Nonempty (OperandTree others e)
  | .plain value, _, h => by
    obtain ⟨tree⟩ := value.sameKinds h
    exact ⟨.plain tree⟩
  | .immediate marked value, _, h => by
    obtain ⟨hash, rest, rfl, hhash, hrest⟩ := List.map_eq_cons_iff.mp h
    obtain ⟨tree⟩ := value.sameKinds hrest
    exact ⟨.immediate (hhash.trans marked) tree⟩

theorem LevelTree.sameKinds {level : Level} {tokens : List Token} {e : Expr} :
    LevelTree level tokens e → ∀ {others : List Token}, SameKinds tokens others →
      Nonempty (LevelTree level others e)
  | .tighter below inner, _, h => by
    obtain ⟨tree⟩ := inner.sameKinds h
    exact ⟨.tighter below tree⟩
  | .binary below signed joins left right, _, h => by
    rw [SameKinds, List.map_append, List.map_cons] at h
    obtain ⟨front, behind, rfl, hfront, hbehind⟩ := List.map_eq_append_iff.mp h
    obtain ⟨token, back, rfl, htoken, hback⟩ := List.map_eq_cons_iff.mp hbehind
    obtain ⟨first⟩ := left.sameKinds hfront
    obtain ⟨second⟩ := right.sameKinds hback
    exact ⟨.binary below (htoken.trans signed) joins first second⟩
  | .unary signed applies operand, _, h => by
    obtain ⟨token, rest, rfl, htoken, hrest⟩ := List.map_eq_cons_iff.mp h
    obtain ⟨tree⟩ := operand.sameKinds hrest
    exact ⟨.unary (htoken.trans signed) applies tree⟩
  | .number found, _, h => by
    obtain ⟨token, rfl, htoken⟩ := List.map_eq_singleton_iff.mp h
    exact ⟨.number (htoken.trans found)⟩
  | .text found, _, h => by
    obtain ⟨token, rfl, htoken⟩ := List.map_eq_singleton_iff.mp h
    exact ⟨.text (htoken.trans found)⟩
  | .name found, _, h => by
    obtain ⟨token, rfl, htoken⟩ := List.map_eq_singleton_iff.mp h
    exact ⟨.name (htoken.trans found)⟩
  | .longName marked found, _, h => by
    obtain ⟨mark, rest, rfl, hmark, hrest⟩ := List.map_eq_cons_iff.mp h
    obtain ⟨token, rfl, htoken⟩ := List.map_eq_singleton_iff.mp hrest
    exact ⟨.longName (hmark.trans marked) (htoken.trans found)⟩
  | .paren opens closes list, _, h => by
    rw [SameKinds, List.map_append, List.map_cons] at h
    obtain ⟨front, back, rfl, hfront, hback⟩ := List.map_eq_append_iff.mp h
    obtain ⟨opener, inner, rfl, hopener, hinner⟩ := List.map_eq_cons_iff.mp hfront
    obtain ⟨closer, rfl, hcloser⟩ := List.map_eq_singleton_iff.mp hback
    obtain ⟨tree⟩ := list.sameKinds hinner
    exact ⟨.paren (hopener.trans opens) (hcloser.trans closes) tree⟩
  | .bracket opens closes list, _, h => by
    rw [SameKinds, List.map_append, List.map_cons] at h
    obtain ⟨front, back, rfl, hfront, hback⟩ := List.map_eq_append_iff.mp h
    obtain ⟨opener, inner, rfl, hopener, hinner⟩ := List.map_eq_cons_iff.mp hfront
    obtain ⟨closer, rfl, hcloser⟩ := List.map_eq_singleton_iff.mp hback
    obtain ⟨tree⟩ := list.sameKinds hinner
    exact ⟨.bracket (hopener.trans opens) (hcloser.trans closes) tree⟩

theorem ItemsTree.sameKinds {tokens : List Token} {items : List Expr} :
    ItemsTree tokens items → ∀ {others : List Token}, SameKinds tokens others →
      Nonempty (ItemsTree others items)
  | .one operand, _, h => by
    obtain ⟨tree⟩ := operand.sameKinds h
    exact ⟨.one tree⟩
  | .more divides operand rest, _, h => by
    rw [SameKinds, List.map_append, List.map_cons] at h
    obtain ⟨front, behind, rfl, hfront, hbehind⟩ := List.map_eq_append_iff.mp h
    obtain ⟨comma, back, rfl, hcomma, hback⟩ := List.map_eq_cons_iff.mp hbehind
    obtain ⟨first⟩ := operand.sameKinds hfront
    obtain ⟨others⟩ := rest.sameKinds hback
    exact ⟨.more (hcomma.trans divides) first others⟩

end

theorem StatementTree.sameKinds {tokens others : List Token} (tree : StatementTree tokens)
    (h : SameKinds tokens others) :
    ∃ tree' : StatementTree others, tree'.statement.unplaced = tree.statement.unplaced := by
  cases tree with
  | bare named =>
    obtain ⟨token, rfl, htoken⟩ := List.map_eq_singleton_iff.mp h
    exact ⟨.bare (htoken.trans named), rfl⟩
  | ellipsis named dots =>
    obtain ⟨token, rest, rfl, htoken, hrest⟩ := List.map_eq_cons_iff.mp h
    obtain ⟨mark, rfl, hmark⟩ := List.map_eq_singleton_iff.mp hrest
    exact ⟨.ellipsis (htoken.trans named) (hmark.trans dots), rfl⟩
  | operands named list =>
    obtain ⟨token, rest, rfl, htoken, hrest⟩ := List.map_eq_cons_iff.mp h
    obtain ⟨items⟩ := list.sameKinds hrest
    exact ⟨.operands (htoken.trans named) items, rfl⟩
  | openEnded named list divides dots =>
    rw [SameKinds, List.map_cons, List.map_append] at h
    obtain ⟨token, rest, rfl, htoken, hrest⟩ := List.map_eq_cons_iff.mp h
    obtain ⟨inner, ending, rfl, hinner, hending⟩ := List.map_eq_append_iff.mp hrest
    obtain ⟨comma, last, rfl, hcomma, hlast⟩ := List.map_eq_cons_iff.mp hending
    obtain ⟨mark, rfl, hmark⟩ := List.map_eq_singleton_iff.mp hlast
    obtain ⟨items⟩ := list.sameKinds hinner
    exact ⟨.openEnded (htoken.trans named) items (hcomma.trans divides) (hmark.trans dots), rfl⟩

theorem StatementsTree.sameKinds {tokens others : List Token} (tree : StatementsTree tokens)
    (h : SameKinds tokens others) :
    ∃ tree' : StatementsTree others,
      tree'.statements.map Statement.unplaced = tree.statements.map Statement.unplaced := by
  induction tree generalizing others with
  | one statement =>
    obtain ⟨tree, htree⟩ := statement.sameKinds h
    exact ⟨.one tree, congrArg (fun first => [first]) htree⟩
  | more statement divides rest ih =>
    rw [SameKinds, List.map_append, List.map_cons] at h
    obtain ⟨front, behind, rfl, hfront, hbehind⟩ := List.map_eq_append_iff.mp h
    obtain ⟨colon, back, rfl, hcolon, hback⟩ := List.map_eq_cons_iff.mp hbehind
    obtain ⟨first, hfirst⟩ := statement.sameKinds hfront
    obtain ⟨list, hlist⟩ := ih hback
    exact ⟨.more first (hcolon.trans divides) list, congrArg₂ List.cons hfirst hlist⟩

theorem StatementsTree.first {tokens : List Token} (tree : StatementsTree tokens) :
    ∃ token behind statement rest, tokens = token :: behind ∧
      tree.statements = statement :: rest ∧ statement.name.span = token.span := by
  cases tree with
  | one statement =>
    obtain ⟨token, behind, rfl, hspan, -⟩ := statement.behind
    exact ⟨token, behind, _, _, rfl, rfl, hspan⟩
  | more statement divides rest =>
    obtain ⟨token, behind, rfl, hspan, -⟩ := statement.behind
    exact ⟨token, _, _, _, rfl, rfl, hspan⟩

/-- The same statements in other places have their label in the same column. -/
theorem StatementsTree.ofStatements_unplaced {offset offset' : Nat} {tokens others : List Token}
    (tree : StatementsTree tokens) (other : StatementsTree others)
    (hsame : other.statements.map Statement.unplaced = tree.statements.map Statement.unplaced)
    (h : List.Forall₂ (Token.Matches offset offset') tokens others) :
    (LineBody.ofStatements offset' other.statements).unplaced =
      (LineBody.ofStatements offset tree.statements).unplaced := by
  obtain ⟨token, behind, statement, rest, rfl, htree, hspan⟩ := tree.first
  obtain ⟨token', behind', statement', rest', rfl, hother, hspan'⟩ := other.first
  obtain ⟨⟨-, hstart⟩, -⟩ := List.forall₂_cons.mp h
  rw [htree, hother] at hsame ⊢
  obtain ⟨hhead, hrest⟩ := List.cons.inj hsame
  have hname : statement'.name.unplaced = statement.name.unplaced :=
    congrArg Statement.name hhead
  simp only [LineBody.ofStatements, hspan, hspan', hstart]
  split
  · simp only [LineBody.unplaced, Option.map_some, hname, hrest]
  · simp only [LineBody.unplaced, List.map_cons, hhead, hrest]

section Columns

variable {offset offset' : Nat} {tokens others : List Token}

theorem sameKinds_of_matches (h : List.Forall₂ (Token.Matches offset offset') tokens others) :
    SameKinds tokens others := by
  induction h with
  | nil => rfl
  | cons hfirst rest ih => exact congrArg₂ List.cons hfirst.kind ih

theorem FirstColumn.matches (hcolumn : FirstColumn offset tokens)
    (h : List.Forall₂ (Token.Matches offset offset') tokens others) :
    FirstColumn offset' others := by
  rintro first' second' rest' rfl hstart
  obtain ⟨first, behind, hfirst, hbehind, rfl⟩ := List.forall₂_cons_right_iff.mp h
  obtain ⟨second, rest, hsecond, -, rfl⟩ := List.forall₂_cons_right_iff.mp hbehind
  rw [hsecond.kind]
  exact hcolumn first second rest rfl (hfirst.start.mp hstart)

/-- A derivation of a line gives one of the same line in another place. -/
theorem LineTree.matches (tree : LineTree tokens) (hcolumns : tree.InColumns offset)
    (h : List.Forall₂ (Token.Matches offset offset') tokens others) :
    ∃ tree' : LineTree others, tree'.InColumns offset' ∧
      (tree'.body offset').unplaced = (tree.body offset).unplaced := by
  have hkinds := sameKinds_of_matches h
  have hcolumn := hcolumns.1.matches h
  cases tree with
  | equate named assigns value =>
    obtain ⟨token, rest, rfl, htoken, hrest⟩ := List.map_eq_cons_iff.mp hkinds
    obtain ⟨sign, behind, rfl, hsign, hbehind⟩ := List.map_eq_cons_iff.mp hrest
    obtain ⟨operand⟩ := value.sameKinds hbehind
    refine ⟨.equate (htoken.trans named) (hsign.trans assigns) operand, ⟨hcolumn, trivial⟩, ?_⟩
    rfl
  | statements list =>
    obtain ⟨other, hother⟩ := list.sameKinds hkinds
    exact ⟨.statements other, ⟨hcolumn, trivial⟩, list.ofStatements_unplaced other hother h⟩
  | trailing list ends =>
    -- The colon stands behind a label that is alone, in both places.
    obtain ⟨label, rfl, hlabel⟩ := hcolumns.2
    obtain ⟨first, rest, hfirst, hrest, rfl⟩ := List.forall₂_cons_left_iff.mp h
    obtain ⟨colon, empty, hcolon, hempty, rfl⟩ := List.forall₂_cons_left_iff.mp hrest
    obtain rfl := List.forall₂_nil_left_iff.mp hempty
    have hsole : List.Forall₂ (Token.Matches offset offset') [label] [first] :=
      .cons hfirst .nil
    obtain ⟨other, hother⟩ := list.sameKinds (sameKinds_of_matches hsole)
    have htree : (LineTree.trailing other (hcolon.kind.trans ends)).InColumns offset' :=
      ⟨hcolumn, first, rfl, hfirst.start.mpr hlabel⟩
    exact ⟨_, htree, list.ofStatements_unplaced other hother hsole⟩

end Columns

/-! ## Lines -/

/-- What a line says does not depend on where it stands. -/
theorem readLine_content {location : Location} {text : List Char} {line : Option Line}
    (h : readLine location text = .ok line) (location' : Location) :
    ∃ line', readLine location' text = .ok line' ∧
      line'.map Line.content = line.map Line.content := by
  obtain ⟨tokens, hlex, -⟩ := bind_eq_ok.mp h
  obtain ⟨tokens', hlex', htokens⟩ :=
    lexLine_matches hlex location'.span.source location'.span.start
  cases hlast : tokens.getLast? with
  | none =>
    obtain rfl := List.getLast?_eq_none_iff.mp hlast
    obtain rfl := List.forall₂_nil_left_iff.mp htokens
    obtain rfl := Except.ok.inj ((readLine_blank hlex).symm.trans h)
    exact ⟨none, readLine_blank hlex', rfl⟩
  | some last =>
    obtain ⟨hlabel, body, hbody, rfl⟩ := (readLine_eq_ok hlex hlast).mp h
    obtain ⟨tree, hcolumns, rfl⟩ := readBody_finds hbody hlabel
    obtain ⟨tree', hcolumns', hsame⟩ := tree.matches hcolumns htokens
    obtain ⟨last', hlast'⟩ : ∃ last', tokens'.getLast? = some last' :=
      ⟨_, List.getLast?_eq_some_getLast tree'.ne_nil⟩
    obtain ⟨hbody', hlabel'⟩ := tree'.readBody hcolumns' location'.span.source last'.span.stop
    refine ⟨some ⟨tree'.body location'.span.start, location'⟩, ?_, congrArg some hsame⟩
    exact (readLine_eq_ok hlex' hlast').mpr ⟨hlabel', _, hbody', rfl⟩

theorem readLine_location {location : Location} {text : List Char} {line : Line}
    (h : readLine location text = .ok (some line)) : line.location = location := by
  obtain ⟨tokens, hlex, -⟩ := bind_eq_ok.mp h
  cases hlast : tokens.getLast? with
  | none =>
    obtain rfl := List.getLast?_eq_none_iff.mp hlast
    cases (readLine_blank hlex).symm.trans h
  | some last =>
    obtain ⟨-, body, -, hline⟩ := (readLine_eq_ok hlex hlast).mp h
    cases hline
    rfl

/-! ## Sources -/

theorem readLine_error_ne_nil {location : Location} {text : List Char} :
    readLine location text ≠ .error [] := by
  intro h
  rcases bind_eq_error.mp h with hlex | ⟨tokens, -, h⟩
  · unfold lexLine at hlex
    dsimp only at hlex
    split at hlex
    case h_1 => cases hlex
    case h_2 hreports => exact hreports (Except.error.inj hlex)
  · split at h
    case h_1 => cases h
    case h_2 =>
      split at h
      case h_1 => cases h
      case h_2 => split at h <;> cases h

theorem failures_map_ok {ε α : Type} (found : List α) :
    failures (found.map (Except.ok : α → Except ε α)) = [] := by
  induction found with
  | nil => rfl
  | cons first rest ih => exact ih

theorem filterMap_toOption_map_ok {ε α : Type} (found : List α) :
    (found.map (Except.ok : α → Except ε α)).filterMap Except.toOption = found := by
  induction found with
  | nil => rfl
  | cons first rest ih => exact congrArg (first :: ·) ih

/-- Without reports every line was read. -/
theorem exists_of_failures {α : Type} {results : List (Except (List Diagnostic) α)}
    (h : (failures results).flatten = []) (hreports : ∀ result ∈ results, result ≠ .error []) :
    ∃ found : List α, results = found.map .ok := by
  induction results with
  | nil => exact ⟨[], rfl⟩
  | cons result rest ih =>
    cases result with
    | error reports =>
      obtain ⟨hnil, -⟩ : reports = [] ∧ _ := List.append_eq_nil_iff.mp h
      exact absurd (congrArg Except.error hnil) (hreports _ List.mem_cons_self)
    | ok first =>
      obtain ⟨found, rfl⟩ := ih h fun result hresult =>
        hreports result (List.mem_cons_of_mem _ hresult)
      exact ⟨first :: found, rfl⟩

/-- The lines of a text, with its block comments blanked. -/
def codeLines (text : String) : List (List Char) := splitLines (stripBlockComments text.toList).1

/-- A source is read exactly when all its lines are. -/
theorem readSource_lines {source : Nat} {file text : String} {includedFrom : List IncludeSite}
    {lines : List Line} :
    (∃ read, readSource source file text includedFrom = .ok read ∧ read.lines = lines) ↔
      ∃ found : List (Option Line),
        readLines source file includedFrom 1 0 (codeLines text) = found.map .ok ∧
          found.filterMap id = lines := by
  have hreports : ∀ result ∈ readLines source file includedFrom 1 0 (codeLines text),
      result ≠ .error [] := by
    intro result hresult
    obtain ⟨location, line, rfl⟩ := readLines_mem hresult
    exact readLine_error_ne_nil
  unfold readSource
  unfold codeLines at hreports ⊢
  dsimp only
  generalize readLines source file includedFrom 1 0 _ = results at hreports ⊢
  constructor
  · rintro ⟨read, hread, rfl⟩
    split at hread
    case h_1 hnone =>
      cases hread
      obtain ⟨found, rfl⟩ := exists_of_failures hnone hreports
      exact ⟨found, rfl, by rw [filterMap_toOption_map_ok]⟩
    case h_2 => cases hread
  · rintro ⟨found, rfl, rfl⟩
    simp only [failures_map_ok, List.flatten_nil, filterMap_toOption_map_ok]
    exact ⟨_, rfl, rfl⟩

/-- The lines that are left of lines numbered from `number` when some are deleted. -/
def keptLines (gone : Nat → Bool) : Nat → List (List Char) → List (List Char)
  | _, [] => []
  | number, line :: rest =>
    if gone number then keptLines gone (number + 1) rest
    else line :: keptLines gone (number + 1) rest

/-- Lines that are left say what they said before. -/
theorem readLines_kept {source : Nat} {file : String} {includedFrom : List IncludeSite}
    {number offset : Nat} {texts : List (List Char)} {found : List (Option Line)}
    (h : readLines source file includedFrom number offset texts = found.map .ok)
    (gone : Nat → Bool) (source' : Nat) (file' : String) (includedFrom' : List IncludeSite)
    (number' offset' : Nat) :
    ∃ found' : List (Option Line),
      readLines source' file' includedFrom' number' offset' (keptLines gone number texts) =
        found'.map .ok ∧
      (found'.filterMap id).map Line.content =
        ((found.filterMap id).filter fun line => !gone line.location.line).map Line.content := by
  induction texts generalizing number offset number' offset' found with
  | nil =>
    obtain rfl := List.map_eq_nil_iff.mp h.symm
    exact ⟨[], rfl, rfl⟩
  | cons text rest ih =>
    obtain ⟨line, others, rfl, hline, hothers⟩ := List.map_eq_cons_iff.mp h.symm
    have hnumber : ∀ given, line = some given → given.location.line = number := by
      rintro given rfl
      rw [readLine_location hline.symm]
    cases hgone : gone number with
    | true =>
      obtain ⟨found', hfound', hsame⟩ := ih hothers.symm number' offset'
      rw [keptLines, if_pos hgone]
      refine ⟨found', hfound', hsame.trans ?_⟩
      cases line with
      | none => rfl
      | some given =>
        rw [List.filterMap_cons_some (id_eq _), List.filter_cons, hnumber given rfl, hgone]
        rfl
    | false =>
      obtain ⟨line', hline', hcontent⟩ := readLine_content hline.symm
        ⟨file', number', ⟨source', offset', offset' + byteLength (trimEnd text)⟩, includedFrom'⟩
      obtain ⟨found', hfound', hsame⟩ :=
        ih hothers.symm (number' + 1) (offset' + byteLength text + 1)
      refine ⟨line' :: found', ?_, ?_⟩
      · rw [keptLines, hgone]
        exact congrArg₂ List.cons hline' hfound'
      · cases line with
        | none =>
          obtain rfl := Option.map_eq_none_iff.mp hcontent
          exact hsame
        | some given =>
          obtain ⟨given', rfl, hgiven⟩ := Option.map_eq_some_iff.mp hcontent
          rw [List.filterMap_cons_some (id_eq _), List.filterMap_cons_some (id_eq _),
            List.filter_cons, hnumber given rfl, hgone]
          exact congrArg₂ List.cons hgiven hsame

/-- The text that is left of another when the lines with the given numbers are deleted. Block
comments are blanked before lines are counted. -/
def LeavesText (gone : Nat → Bool) (text rest : String) : Prop :=
  codeLines rest = keptLines gone 1 (codeLines text)

instance (gone : Nat → Bool) (text rest : String) : Decidable (LeavesText gone text rest) :=
  inferInstanceAs (Decidable (_ = _))

/-- A source from which lines are deleted is read as before, except for these lines. -/
theorem readSource_kept {source : Nat} {file text rest : String}
    {includedFrom : List IncludeSite} {read : SourceLines}
    (h : readSource source file text includedFrom = .ok read) {gone : Nat → Bool}
    (hrest : LeavesText gone text rest) (source' : Nat) (file' : String)
    (includedFrom' : List IncludeSite) :
    ∃ read', readSource source' file' rest includedFrom' = .ok read' ∧
      read'.lines.map Line.content =
        (read.lines.filter fun line => !gone line.location.line).map Line.content := by
  obtain ⟨found, hfound, hlines⟩ := readSource_lines.mp ⟨read, h, rfl⟩
  obtain ⟨found', hfound', hsame⟩ :=
    readLines_kept hfound gone source' file' includedFrom' 1 0
  rw [← hrest] at hfound'
  obtain ⟨read', hread', hlines'⟩ := readSource_lines.mpr ⟨found', hfound', rfl⟩
  refine ⟨read', hread', ?_⟩
  rw [hlines', hsame, hlines]

theorem keptLines_none (number : Nat) (texts : List (List Char)) :
    keptLines (fun _ => false) number texts = texts := by
  induction texts generalizing number with
  | nil => rfl
  | cons text rest ih => exact congrArg (text :: ·) (ih (number + 1))

/-- What a source says does not depend on its name and number. -/
theorem readSource_content {source : Nat} {file text : String} {includedFrom : List IncludeSite}
    {read : SourceLines} (h : readSource source file text includedFrom = .ok read)
    (source' : Nat) (file' : String) (includedFrom' : List IncludeSite) :
    ∃ read', readSource source' file' text includedFrom' = .ok read' ∧
      read'.lines.map Line.content = read.lines.map Line.content := by
  have hrest : LeavesText (fun _ => false) text text := (keptLines_none 1 _).symm
  obtain ⟨read', hread', hsame⟩ := readSource_kept h hrest source' file' includedFrom'
  refine ⟨read', hread', hsame.trans ?_⟩
  rw [Bool.not_false, List.filter_true]

theorem readLines_location {source : Nat} {file : String} {includedFrom : List IncludeSite}
    {number offset : Nat} {texts : List (List Char)} {line : Line}
    (h : .ok (some line) ∈ readLines source file includedFrom number offset texts) :
    line.location.file = file ∧ line.location.includedFrom = includedFrom := by
  induction texts generalizing number offset with
  | nil => cases h
  | cons text rest ih =>
    rcases List.mem_cons.mp h with hhead | hrest
    · rw [readLine_location hhead.symm]
      exact ⟨rfl, rfl⟩
    · exact ih hrest

/-- Every line of a source stands in its file, reached on the way that led to the source. -/
theorem readSource_location {source : Nat} {file text : String} {includedFrom : List IncludeSite}
    {read : SourceLines} (h : readSource source file text includedFrom = .ok read) {line : Line}
    (hline : line ∈ read.lines) :
    line.location.file = file ∧ line.location.includedFrom = includedFrom := by
  obtain ⟨found, hfound, hlines⟩ := readSource_lines.mp ⟨read, h, rfl⟩
  rw [← hlines, List.mem_filterMap] at hline
  obtain ⟨result, hresult, hsome⟩ := hline
  obtain rfl : result = some line := hsome
  have hmem : .ok (some line) ∈ readLines source file includedFrom 1 0 (codeLines text) := by
    rw [hfound]
    exact List.mem_map_of_mem hresult
  exact readLines_location hmem

end Asm65816
