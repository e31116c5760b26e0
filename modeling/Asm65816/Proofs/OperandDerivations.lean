import Asm65816.Proofs.OperandGrammar

/-!
# Derivations of operands

The other direction: an operand that the grammar derives is read, whatever follows it, as long as
no operator goes on. Reading decides between a prefix and an operator by the place alone, and so
a sequence of tokens has at most one derivation.
-/

namespace Asm65816

/-! ## Signs and their levels -/

/-- The operator of a sign between two operands. -/
def Punct.binary? : Punct → Option BinaryOp
  | .pipes => some .logicalOr
  | .ampersands => some .logicalAnd
  | .equal => some .equal
  | .notEqual => some .notEqual
  | .less => some .less
  | .greater => some .greater
  | .lessEqual => some .lessEqual
  | .greaterEqual => some .greaterEqual
  | .pipe => some .bitOr
  | .caret => some .bitXor
  | .ampersand => some .bitAnd
  | .shiftLeft => some .shiftLeft
  | .shiftRight => some .shiftRight
  | .plus => some .add
  | .minus => some .sub
  | .star => some .mul
  | .slash => some .div
  | .percent => some .mod
  | .starStar => some .pow
  | _ => none

/-- The signs that an expression can start with. -/
def Punct.opens : Punct → Bool
  | .bang | .plus | .minus | .tilde | .less | .greater => true
  | .ampersand | .leftParen | .leftBracket => true
  | _ => false

/-- The signs that an operand can start with. -/
def Punct.opensOperand : Punct → Bool
  | .hash => true
  | sign => sign.opens

/-- The level of a binary operator. -/
def BinaryOp.level : BinaryOp → Level
  | logicalOr => .logicalOr
  | logicalAnd => .logicalAnd
  | equal | notEqual | less | greater | lessEqual | greaterEqual => .comparison
  | bitOr => .bitOr
  | bitXor => .bitXor
  | bitAnd => .bitAnd
  | shiftLeft | shiftRight => .shift
  | add | sub => .sum
  | mul | div | mod => .product
  | pow => .power

/-- The level of a prefix operator. -/
def UnaryOp.level : UnaryOp → Level
  | logicalNot => .logicalNot
  | _ => .sign

namespace Level

theorem binary?_eq_some {level : Level} {sign : Punct} {op : BinaryOp}
    (h : level.binary? sign = some op) : sign.binary? = some op ∧ op.level = level := by
  cases level <;> cases sign <;> first | (cases h; exact ⟨rfl, rfl⟩) | cases h

theorem unary?_eq_some {level : Level} {sign : Punct} {op : UnaryOp}
    (h : level.unary? sign = some op) :
    op.level = level ∧ level.leads = true ∧ sign.opens = true := by
  cases level <;> cases sign <;> first | (cases h; decide) | cases h

theorem unary?_level {level other : Level} {sign : Punct} {op found : UnaryOp}
    (h : level.unary? sign = some op) (hother : other.unary? sign = some found) :
    other = level := by
  cases sign <;> cases level <;> cases h <;> cases other <;> cases hother <;> rfl

theorem binary?_of_leads {level : Level} (leads : level.leads = true) (sign : Punct) :
    level.binary? sign = none := by
  cases level <;> first | rfl | cases leads

/-- No sign at the front of the tokens joins operands on the level or on a tighter one. -/
def Ends (level : Level) (rest : List Token) : Prop :=
  ∀ token ∈ rest.head?, ∀ sign op, token.kind = .punct sign → sign.binary? = some op →
    op.level.rank < level.rank

theorem Ends.tighter {level next : Level} {rest : List Token} (h : level.Ends rest)
    (below : level.tighter? = some next) : next.Ends rest := by
  intro token htoken sign op hkind hop
  have hlevel := h token htoken sign op hkind hop
  have hrank := rank_of_tighter below
  omega

/-- A level of operators goes on behind an operand that was read on it. -/
def goOn (inner : OperandReader) (level : Level) (e : Expr) (rest : List Token) :
    Except SyntaxFault (Expr × List Token) :=
  match level.tighter? with
  | some next => readChainRest level.binary? level.after (next.read inner) rest.length e rest
  | none => .ok (e, rest)

end Level

theorem readChainRest_stops {operator : Punct → Option BinaryOp} {after : Expectation}
    {next : OperandReader} {limit : Nat} {e : Expr} {rest : List Token}
    (h : ∀ token ∈ rest.head?, ∀ sign, token.kind = .punct sign → operator sign = none) :
    readChainRest operator after next limit e rest = .ok (e, rest) := by
  unfold readChainRest
  split
  · rename_i sign span text others
    have hnone := h ⟨.punct sign, span, text⟩ rfl sign rfl
    rw [hnone]
  · rfl

namespace Level

theorem goOn_of_ends {inner : OperandReader} {level : Level} {e : Expr} {rest : List Token}
    (h : level.Ends rest) : level.goOn inner e rest = .ok (e, rest) := by
  unfold goOn
  split
  · apply readChainRest_stops
    intro token htoken sign hkind
    cases hop : level.binary? sign with
    | none => rfl
    | some op =>
      obtain ⟨hsign, hlevel⟩ := binary?_eq_some hop
      have hrank := h token htoken sign op hkind hsign
      rw [hlevel] at hrank
      omega
  · rfl

theorem goOn_of_leads {inner : OperandReader} {level : Level} {e : Expr} {rest : List Token}
    (leads : level.leads = true) : level.goOn inner e rest = .ok (e, rest) := by
  unfold goOn
  split
  · exact readChainRest_stops fun token _ sign _ => binary?_of_leads leads sign
  · rfl

end Level

/-- A level goes on alike under every limit that its tokens do not reach. -/
theorem readChainRest_limit {operator : Punct → Option BinaryOp} {after : Expectation}
    {next : OperandReader} {Tree : List Token → Expr → Type} (hnext : next.Finds Tree)
    {limit other : Nat} {e : Expr} {tokens : List Token} (hlimit : tokens.length ≤ limit)
    (hother : tokens.length ≤ other) :
    readChainRest operator after next limit e tokens =
      readChainRest operator after next other e tokens := by
  induction limit generalizing other e tokens with
  | zero =>
    obtain rfl := List.eq_nil_of_length_eq_zero (Nat.le_zero.mp hlimit)
    rw [readChainRest_stops (by simp), readChainRest_stops (by simp)]
  | succ limit ih =>
    cases tokens with
    | nil => rw [readChainRest_stops (by simp), readChainRest_stops (by simp)]
    | cons token tokens =>
      obtain ⟨kind, span, text⟩ := token
      cases other with
      | zero => cases hother
      | succ other =>
        cases kind with
        | punct sign =>
          rw [readChainRest, readChainRest]
          cases operator sign with
          | none => rfl
          | some op =>
            dsimp only
            cases hread : next after tokens with
            | error fault => rfl
            | ok found =>
              obtain ⟨right, others⟩ := found
              obtain ⟨used, rfl, -⟩ := hnext hread
              simp only [List.length_cons, List.length_append] at hlimit hother
              have hleft : others.length ≤ limit := by omega
              exact ih hleft (by dsimp only; omega)
        | _ => rfl

/-- An expression of a level does not start with the prefix of a looser one. -/
theorem LevelTree.starts {level : Level} {tokens : List Token} {e : Expr} :
    LevelTree level tokens e → ∃ token others, tokens = token :: others ∧
      ∀ sign, token.kind = .punct sign → sign.opens = true ∧
        ∀ looser : Level, looser.rank < level.rank → looser.unary? sign = none
  | .tighter below inner => by
    obtain ⟨token, others, rfl, hstart⟩ := inner.starts
    refine ⟨token, others, rfl, fun sign hkind => ⟨(hstart sign hkind).1, fun looser hlooser => ?_⟩⟩
    have hrank := Level.rank_of_tighter below
    exact (hstart sign hkind).2 looser (by omega)
  | .binary _ _ _ left _ => by
    obtain ⟨token, others, rfl, hstart⟩ := left.starts
    exact ⟨token, _, rfl, hstart⟩
  | .unary signed applies _ => by
    refine ⟨_, _, rfl, fun sign hkind => ?_⟩
    rw [signed] at hkind
    cases hkind
    refine ⟨(Level.unary?_eq_some applies).2.2, fun looser hlooser => ?_⟩
    cases hfound : looser.unary? _ with
    | none => rfl
    | some found =>
      rw [Level.unary?_level applies hfound] at hlooser
      omega
  | .number found => ⟨_, _, rfl, fun sign hkind => by rw [found] at hkind; cases hkind⟩
  | .text found => ⟨_, _, rfl, fun sign hkind => by rw [found] at hkind; cases hkind⟩
  | .name found => ⟨_, _, rfl, fun sign hkind => by rw [found] at hkind; cases hkind⟩
  | .longName marked _ => by
    refine ⟨_, _, rfl, fun sign hkind => ?_⟩
    rw [marked] at hkind
    cases hkind
    exact ⟨rfl, fun looser _ => by cases looser <;> rfl⟩
  | .paren opens _ _ => by
    refine ⟨_, _, rfl, fun sign hkind => ?_⟩
    rw [opens] at hkind
    cases hkind
    exact ⟨rfl, fun looser _ => by cases looser <;> rfl⟩
  | .bracket opens _ _ => by
    refine ⟨_, _, rfl, fun sign hkind => ?_⟩
    rw [opens] at hkind
    cases hkind
    exact ⟨rfl, fun looser _ => by cases looser <;> rfl⟩

theorem readPrefixes_skips {operator : Punct → Option UnaryOp} {after expected : Expectation}
    {next : OperandReader} {token : Token} {tokens : List Token}
    (h : ∀ sign, token.kind = .punct sign → operator sign = none) :
    readPrefixes operator after next expected (token :: tokens) =
      next expected (token :: tokens) := by
  obtain ⟨kind, span, text⟩ := token
  cases kind with
  | punct sign =>
    have hnone := h sign rfl
    simp only [readPrefixes, hnone]
  | _ => rfl

theorem OperandTree.starts {tokens : List Token} {e : Expr} (tree : OperandTree tokens e) :
    ∃ token others, tokens = token :: others ∧
      ∀ sign, token.kind = .punct sign → sign.opensOperand = true := by
  cases tree with
  | plain value =>
    obtain ⟨token, others, rfl, hstart⟩ := value.starts
    refine ⟨token, others, rfl, fun sign hkind => ?_⟩
    have hopens := (hstart sign hkind).1
    cases sign <;> first | rfl | exact hopens
  | immediate marked =>
    refine ⟨_, _, rfl, fun sign hkind => ?_⟩
    rw [marked] at hkind
    cases hkind
    rfl

/-- A level reads the derivation of the next tighter one, where no sign of a tighter level goes
on. -/
theorem Level.read_tighter {depth : Nat} {level next : Level} {tokens rest : List Token} {e : Expr}
    {expected : Expectation} (below : level.tighter? = some next) (tree : LevelTree next tokens e)
    (hread : next.read (readOperandTo depth) expected (tokens ++ rest) = .ok (e, rest)) :
    level.read (readOperandTo depth) expected (tokens ++ rest) =
      level.goOn (readOperandTo depth) e rest := by
  cases hleads : level.leads with
  | false =>
    rw [Level.read_chain _ below hleads, readChain, hread, ok_bind, Level.goOn, below]
  | true =>
    obtain ⟨token, others, rfl, hstart⟩ := tree.starts
    have hrank := Level.rank_of_tighter below
    rw [Level.read_prefixes _ below hleads, Level.goOn_of_leads hleads, ← hread]
    exact readPrefixes_skips fun sign hkind => (hstart sign hkind).2 level (by omega)

/-- A level goes on with one of its operators and an operand of the next tighter level. -/
theorem Level.goOn_binary {depth : Nat} {level next : Level} {token : Token} {sign : Punct}
    {op : BinaryOp} {back rest : List Token} {l r : Expr} (below : level.tighter? = some next)
    (signed : token.kind = .punct sign) (joins : level.binary? sign = some op)
    (hread : next.read (readOperandTo depth) level.after (back ++ rest) = .ok (r, rest)) :
    level.goOn (readOperandTo depth) l (token :: (back ++ rest)) =
      level.goOn (readOperandTo depth) (.binary op l r) rest := by
  obtain ⟨kind, span, text⟩ := token
  cases signed
  have hnext := next.read_finds (readOperandTo_finds depth)
  simp only [Level.goOn, below, List.length_cons, readChainRest, joins, hread, ok_bind]
  exact readChainRest_limit hnext (by simp) (Nat.le_refl _)

theorem readOperandWith_plain {inner : OperandReader} {expected : Expectation} {token : Token}
    {tokens : List Token} (h : ∀ sign, token.kind = .punct sign → sign.opens = true) :
    readOperandWith inner expected (token :: tokens) =
      readLogical inner expected (token :: tokens) := by
  obtain ⟨kind, span, text⟩ := token
  unfold readOperandWith
  split
  · rename_i heq
    cases heq
    cases h _ rfl
  · rfl

/-- A sign that joins no operands ends the operand before it. -/
theorem Level.ends_of_punct {token : Token} {sign : Punct} {rest : List Token} (level : Level)
    (hkind : token.kind = .punct sign) (hsign : sign.binary? = none) :
    level.Ends (token :: rest) := by
  intro found hfound other op hother hop
  cases hfound
  rw [hkind] at hother
  cases hother
  rw [hsign] at hop
  cases hop

theorem readItems_close {inner : OperandReader} {close : Punct} {limit : Nat} {closer : Token}
    {tokens rest : List Token} {item : Expr} (hcloser : closer.kind = .punct close)
    (hitem : inner .operand tokens = .ok (item, closer :: rest)) :
    readItems inner close (limit + 1) tokens = .ok ([item], rest) := by
  obtain ⟨kind, span, text⟩ := closer
  cases hcloser
  simp only [readItems, hitem, ok_bind, if_true]
  rfl

theorem readItems_comma {inner : OperandReader} {close : Punct} {limit : Nat} {comma : Token}
    {tokens others rest : List Token} {item : Expr} {items : List Expr} (hclose : close ≠ .comma)
    (hcomma : comma.kind = .punct .comma)
    (hitem : inner .operand tokens = .ok (item, comma :: others))
    (hitems : readItems inner close limit others = .ok (items, rest)) :
    readItems inner close (limit + 1) tokens = .ok (item :: items, rest) := by
  obtain ⟨kind, span, text⟩ := comma
  cases hcomma
  simp only [readItems, hitem, ok_bind, if_neg hclose.symm, if_true, hitems]
  rfl

mutual

/-- A derivation of an operand is read, whatever ends it. -/
theorem OperandTree.read {tokens : List Token} {e : Expr} {depth : Nat} (expected : Expectation)
    (rest : List Token) (hdepth : tokens.length ≤ depth) (hends : Level.logicalOr.Ends rest) :
    OperandTree tokens e → readOperandTo depth expected (tokens ++ rest) = .ok (e, rest)
  | .plain value => by
    cases depth with
    | zero =>
      obtain ⟨token, others, rfl, -⟩ := value.starts
      cases hdepth
    | succ depth =>
      have hread := value.read expected rest hdepth fun _ below => hends.tighter below
      rw [Level.goOn_of_ends hends] at hread
      rw [← hread]
      obtain ⟨token, others, rfl, hstart⟩ := value.starts
      exact readOperandWith_plain fun sign hkind => (hstart sign hkind).1
  | .immediate marked value => by
    rename_i hash tokens e
    cases depth with
    | zero => cases hdepth
    | succ depth =>
      have hread := value.read .logical rest (Nat.le_of_lt hdepth) fun _ below =>
        hends.tighter below
      obtain ⟨kind, span, text⟩ := hash
      cases marked
      rw [Level.goOn_of_ends hends] at hread
      simp only [Level.read] at hread
      simp only [List.cons_append, readOperandTo, readOperandWith, hread, ok_bind]
      rfl

/-- A derivation on a level is read, and the level goes on behind it. -/
theorem LevelTree.read {level : Level} {tokens : List Token} {e : Expr} {depth : Nat}
    (expected : Expectation) (rest : List Token) (hdepth : tokens.length ≤ depth + 1)
    (hends : ∀ next, level.tighter? = some next → next.Ends rest) :
    LevelTree level tokens e → level.read (readOperandTo depth) expected (tokens ++ rest) =
      level.goOn (readOperandTo depth) e rest
  | .tighter below inner => by
    have hread := inner.read expected rest hdepth fun _ deeper => (hends _ below).tighter deeper
    rw [Level.goOn_of_ends (hends _ below)] at hread
    exact Level.read_tighter below inner hread
  | .binary below signed joins left right => by
    rename_i token sign op front back l r
    simp only [List.length_append, List.length_cons] at hdepth
    obtain ⟨hsign, hlevel⟩ := Level.binary?_eq_some joins
    have hrank := Level.rank_of_tighter below
    -- the sign itself belongs to this level, so no tighter one reads past it
    have hstop : ∀ next, level.tighter? = some next → next.Ends (token :: (back ++ rest)) := by
      intro next hnext found hfound other op' hother hop
      cases hfound
      cases signed.symm.trans hother
      cases hsign.symm.trans hop
      cases below.symm.trans hnext
      rw [hlevel]
      omega
    have hback : back.length ≤ depth + 1 := by omega
    have hright := right.read level.after rest hback fun _ deeper =>
      (hends _ below).tighter deeper
    rw [Level.goOn_of_ends (hends _ below)] at hright
    have hfront : front.length ≤ depth + 1 := by omega
    have hleft := left.read expected _ hfront hstop
    rw [Level.goOn_binary below signed joins hright] at hleft
    simpa using hleft
  | .unary signed applies operand => by
    rename_i token sign op tokens e
    obtain ⟨-, hleads, -⟩ := Level.unary?_eq_some applies
    have hread := operand.read level.after rest (Nat.le_of_lt hdepth) hends
    rw [Level.goOn_of_leads hleads] at hread ⊢
    cases below : level.tighter? with
    | none =>
      cases level <;> cases below
      cases hleads
    | some next =>
      obtain ⟨kind, span, text⟩ := token
      cases signed
      rw [Level.read_prefixes _ below hleads] at hread ⊢
      simp only [List.cons_append, readPrefixes, applies, hread, ok_bind]
      rfl
  | .number found => by
    rename_i token _
    obtain ⟨kind, span, text⟩ := token
    cases found
    rfl
  | .text found => by
    rename_i token _ _
    obtain ⟨kind, span, text⟩ := token
    cases found
    rfl
  | .name found => by
    rename_i token _
    obtain ⟨kind, span, text⟩ := token
    cases found
    rfl
  | .longName marked found => by
    rename_i mark token _
    obtain ⟨kind, span, text⟩ := mark
    obtain ⟨kind, span, text⟩ := token
    cases marked
    cases found
    rfl
  | .paren opens closes list => by
    rename_i opener closer tokens items
    simp only [List.length_cons, List.length_append, List.length_nil] at hdepth
    have hlimit : tokens.length ≤ (tokens ++ closer :: rest).length := by simp
    have hinside : tokens.length ≤ depth := by omega
    have hread := list.read rest hinside hlimit closes rfl (by decide)
    obtain ⟨kind, span, text⟩ := opener
    cases opens
    simp only [List.cons_append, List.append_assoc, List.nil_append, Level.read, readAtom, hread,
      ok_bind]
    rfl
  | .bracket opens closes list => by
    rename_i opener closer tokens items
    simp only [List.length_cons, List.length_append, List.length_nil] at hdepth
    have hlimit : tokens.length ≤ (tokens ++ closer :: rest).length := by simp
    have hinside : tokens.length ≤ depth := by omega
    have hread := list.read rest hinside hlimit closes rfl (by decide)
    obtain ⟨kind, span, text⟩ := opener
    cases opens
    simp only [List.cons_append, List.append_assoc, List.nil_append, Level.read, readAtom, hread,
      ok_bind]
    rfl

/-- A derivation of the items of a group is read up to the sign that closes the group. -/
theorem ItemsTree.read {tokens : List Token} {items : List Expr} {depth limit : Nat}
    {close : Punct} {closer : Token} (rest : List Token) (hdepth : tokens.length ≤ depth)
    (hlimit : tokens.length ≤ limit) (hcloser : closer.kind = .punct close)
    (hclose : close.binary? = none) (hcomma : close ≠ .comma) :
    ItemsTree tokens items →
      readItems (readOperandTo depth) close limit (tokens ++ closer :: rest) = .ok (items, rest)
  | .one operand => by
    have hread := operand.read .operand (closer :: rest) hdepth
      (Level.ends_of_punct .logicalOr hcloser hclose)
    cases limit with
    | zero =>
      obtain ⟨token, others, rfl, -⟩ := operand.starts
      cases hlimit
    | succ limit => exact readItems_close hcloser hread
  | .more divides operand others => by
    rename_i comma front back item items
    simp only [List.length_append, List.length_cons] at hdepth hlimit
    cases limit with
    | zero => omega
    | succ limit =>
      have hback : back.length ≤ depth ∧ back.length ≤ limit := by omega
      have hfront : front.length ≤ depth := by omega
      have hrest := others.read rest hback.1 hback.2 hcloser hclose hcomma
      have hread := operand.read .operand (comma :: (back ++ closer :: rest)) hfront
        (Level.ends_of_punct .logicalOr divides rfl)
      rw [List.append_assoc]
      exact readItems_comma hcomma divides hread hrest

end

/-! ## A sequence of tokens has one derivation -/

mutual

/-- How many tokens an expression is written with. -/
def Expr.tokenCount : Expr → Nat
  | .number _ | .text _ _ | .bound _ _ => 1
  | .name n => if n.long then 2 else 1
  | .unary _ e | .immediate e => e.tokenCount + 1
  | .binary _ l r => l.tokenCount + (r.tokenCount + 1)
  | .group items _ => Expr.tokenCounts items + 1

/-- How many tokens the items of a group are written with, the one behind each of them counted. -/
def Expr.tokenCounts : List Expr → Nat
  | [] => 0
  | e :: rest => e.tokenCount + 1 + Expr.tokenCounts rest

end

mutual

theorem OperandTree.length_eq {tokens : List Token} {e : Expr} :
    OperandTree tokens e → tokens.length = e.tokenCount
  | .plain value => value.length_eq
  | .immediate _ value => congrArg (· + 1) value.length_eq

theorem LevelTree.length_eq {level : Level} {tokens : List Token} {e : Expr} :
    LevelTree level tokens e → tokens.length = e.tokenCount
  | .tighter _ inner => inner.length_eq
  | .binary _ _ _ left right => by
    simp only [List.length_append, List.length_cons, Expr.tokenCount, left.length_eq,
      right.length_eq]
  | .unary _ _ operand => congrArg (· + 1) operand.length_eq
  | .number _ | .text _ | .name _ | .longName _ _ => rfl
  | .paren _ _ list | .bracket _ _ list => by
    simp [Expr.tokenCount, ← list.length_eq]

theorem ItemsTree.length_eq {tokens : List Token} {items : List Expr} :
    ItemsTree tokens items → tokens.length + 1 = Expr.tokenCounts items
  | .one operand => congrArg (· + 1) operand.length_eq
  | .more _ operand rest => by
    simp only [List.length_append, List.length_cons, Expr.tokenCounts, operand.length_eq,
      ← rest.length_eq]
    omega

end

theorem LevelTree.rank_le_binary {level : Level} {tokens : List Token} {op : BinaryOp}
    {l r : Expr} : LevelTree level tokens (.binary op l r) → level.rank ≤ op.level.rank
  | .tighter below inner => by
    have hinner := inner.rank_le_binary
    have hrank := Level.rank_of_tighter below
    omega
  | .binary _ _ joins _ _ => Nat.le_of_eq (congrArg Level.rank (Level.binary?_eq_some joins).2.symm)

theorem LevelTree.rank_le_unary {level : Level} {tokens : List Token} {op : UnaryOp}
    {e : Expr} : LevelTree level tokens (.unary op e) → level.rank ≤ op.level.rank
  | .tighter below inner => by
    have hinner := inner.rank_le_unary
    have hrank := Level.rank_of_tighter below
    omega
  | .unary _ applies _ => Nat.le_of_eq (congrArg Level.rank (Level.unary?_eq_some applies).1.symm)

theorem LevelTree.not_immediate {level : Level} {tokens : List Token} {e : Expr} :
    LevelTree level tokens (.immediate e) → False
  | .tighter _ inner => inner.not_immediate

/-- An operator of a level does not come from a tighter one. -/
theorem LevelTree.binary_not_tighter {level next : Level} {sign : Punct} {op : BinaryOp}
    {l r : Expr} {tokens : List Token} (joins : level.binary? sign = some op)
    (below : level.tighter? = some next) (inner : LevelTree next tokens (.binary op l r)) :
    False := by
  have hinner := inner.rank_le_binary
  have hrank := Level.rank_of_tighter below
  rw [(Level.binary?_eq_some joins).2] at hinner
  omega

theorem LevelTree.unary_not_tighter {level next : Level} {sign : Punct} {op : UnaryOp}
    {e : Expr} {tokens : List Token} (applies : level.unary? sign = some op)
    (below : level.tighter? = some next) (inner : LevelTree next tokens (.unary op e)) :
    False := by
  have hinner := inner.rank_le_unary
  have hrank := Level.rank_of_tighter below
  rw [(Level.unary?_eq_some applies).1] at hinner
  omega

mutual

/-- An operand that was derived from some tokens was derived in one way. -/
theorem OperandTree.unique {tokens others : List Token} {e : Expr} (h : tokens = others) :
    (tree : OperandTree tokens e) → (other : OperandTree others e) → HEq tree other
  | .plain value => fun other => by
    cases other with
    | plain value' =>
      have hvalue := value.unique h value'
      subst h
      cases hvalue
      rfl
    | immediate => exact value.not_immediate.elim
  | .immediate _ value => fun other => by
    cases other with
    | plain value' => exact value'.not_immediate.elim
    | immediate _ value' =>
      obtain ⟨hhash, hrest⟩ := List.cons.inj h
      have hvalue := value.unique hrest value'
      subst hhash hrest
      cases hvalue
      rfl

theorem LevelTree.unique {level : Level} {tokens others : List Token} {e : Expr}
    (h : tokens = others) :
    (tree : LevelTree level tokens e) → (other : LevelTree level others e) → HEq tree other
  | .tighter below inner => fun other => by
    cases other with
    | tighter below' inner' =>
      cases below.symm.trans below'
      have hinner := inner.unique h inner'
      subst h
      cases hinner
      rfl
    | binary _ _ joins => exact (inner.binary_not_tighter joins below).elim
    | unary _ applies => exact (inner.unary_not_tighter applies below).elim
    | _ => cases below
  | .binary below signed joins left right => fun other => by
    cases other with
    | tighter below' inner => exact (inner.binary_not_tighter joins below').elim
    | binary below' signed' _ left' right' =>
      have hlength := left.length_eq.trans left'.length_eq.symm
      obtain ⟨hfront, htail⟩ := List.append_inj h hlength
      obtain ⟨htoken, hback⟩ := List.cons.inj htail
      cases below.symm.trans below'
      have hleft := left.unique hfront left'
      have hright := right.unique hback right'
      subst hfront htoken hback
      cases signed.symm.trans signed'
      cases hleft
      cases hright
      rfl
  | .unary signed applies operand => fun other => by
    cases other with
    | tighter below' inner => exact (inner.unary_not_tighter applies below').elim
    | unary signed' _ operand' =>
      obtain ⟨htoken, hrest⟩ := List.cons.inj h
      have hoperand := operand.unique hrest operand'
      subst htoken hrest
      cases signed.symm.trans signed'
      cases hoperand
      rfl
  | .number _ => fun other => by
    cases other with
    | tighter below => cases below
    | number =>
      cases h
      rfl
  | .text _ => fun other => by
    cases other with
    | tighter below => cases below
    | text =>
      cases h
      rfl
  | .name _ => fun other => by
    cases other with
    | tighter below => cases below
    | name =>
      cases h
      rfl
  | .longName _ _ => fun other => by
    cases other with
    | tighter below => cases below
    | longName =>
      cases h
      rfl
  | .paren _ _ list => fun other => by
    cases other with
    | tighter below => cases below
    | paren _ _ list' =>
      obtain ⟨hopener, hrest⟩ := List.cons.inj h
      obtain ⟨htokens, hcloser⟩ := List.append_inj' hrest rfl
      have hlist := list.unique htokens list'
      subst hopener htokens
      cases hcloser
      cases hlist
      rfl
  | .bracket _ _ list => fun other => by
    cases other with
    | tighter below => cases below
    | bracket _ _ list' =>
      obtain ⟨hopener, hrest⟩ := List.cons.inj h
      obtain ⟨htokens, hcloser⟩ := List.append_inj' hrest rfl
      have hlist := list.unique htokens list'
      subst hopener htokens
      cases hcloser
      cases hlist
      rfl

theorem ItemsTree.unique {tokens others : List Token} {items : List Expr} (h : tokens = others) :
    (tree : ItemsTree tokens items) → (other : ItemsTree others items) → HEq tree other
  | .one operand => fun other => by
    cases other with
    | one operand' =>
      have hoperand := operand.unique h operand'
      subst h
      cases hoperand
      rfl
    | more _ _ rest => cases rest
  | .more _ operand rest => fun other => by
    cases other with
    | one => cases rest
    | more _ operand' rest' =>
      have hlength := operand.length_eq.trans operand'.length_eq.symm
      obtain ⟨hfront, htail⟩ := List.append_inj h hlength
      obtain ⟨htoken, hback⟩ := List.cons.inj htail
      have hoperand := operand.unique hfront operand'
      have hrest := rest.unique hback rest'
      subst hfront htoken hback
      cases hoperand
      cases hrest
      rfl

end

/-! ## Whole operands -/

theorem readOperand_finds : readOperand.Finds OperandTree :=
  fun _ tokens _ _ h => readOperandTo_finds (tokens.length + 1) h

theorem OperandTree.readOperand {tokens : List Token} {e : Expr} (tree : OperandTree tokens e)
    (expected : Expectation) (rest : List Token) (hends : Level.logicalOr.Ends rest) :
    readOperand expected (tokens ++ rest) = .ok (e, rest) := by
  refine tree.read expected rest ?_ hends
  simp only [List.length_append]
  omega

/-- A sequence of tokens derives one operand. -/
theorem OperandTree.expr_unique {tokens : List Token} {e other : Expr}
    (tree : OperandTree tokens e) (derived : OperandTree tokens other) : e = other := by
  have hends : Level.logicalOr.Ends [] := fun token htoken => by cases htoken
  have hfirst := tree.readOperand .operand [] hends
  have hother := derived.readOperand .operand [] hends
  rw [hfirst] at hother
  cases hother
  rfl

end Asm65816
