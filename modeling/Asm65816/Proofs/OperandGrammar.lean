import Asm65816.Line.Operand
import Asm65816.Proofs.Outcome

/-!
# The grammar of operands

What an operand is, said by derivation trees: a level of binary operators is a chain of operands
of the next tighter level that associates to the left, a level of prefixes puts any number of them
in front, and atoms close the circle through groups. Whatever is read as an operand from the
front of a line is one of these trees.
-/

namespace Asm65816

/-- The levels of an expression, loosest first. -/
inductive Level where
  | logicalOr
  | logicalAnd
  | logicalNot
  | comparison
  | bitOr
  | bitXor
  | bitAnd
  | shift
  | sum
  | product
  | sign
  | power
  | atom
  deriving DecidableEq, Repr

namespace Level

/-- The next tighter level. -/
def tighter? : Level → Option Level
  | logicalOr => some logicalAnd
  | logicalAnd => some logicalNot
  | logicalNot => some comparison
  | comparison => some bitOr
  | bitOr => some bitXor
  | bitXor => some bitAnd
  | bitAnd => some shift
  | shift => some sum
  | sum => some product
  | product => some sign
  | sign => some power
  | power => some atom
  | atom => none

/-- The signs that join two operands on a level. -/
def binary? : Level → Punct → Option BinaryOp
  | logicalOr => Punct.logicalOr?
  | logicalAnd => Punct.logicalAnd?
  | comparison => Punct.comparison?
  | bitOr => Punct.bitOr?
  | bitXor => Punct.bitXor?
  | bitAnd => Punct.bitAnd?
  | shift => Punct.shift?
  | sum => Punct.sum?
  | product => Punct.product?
  | power => Punct.power?
  | logicalNot | sign | atom => fun _ => none

/-- The signs that stand in front of an operand on a level. -/
def unary? : Level → Punct → Option UnaryOp
  | logicalNot => Punct.logicalNot?
  | sign => Punct.sign?
  | _ => fun _ => none

end Level

/-! ## Derivations -/

mutual

/-- A derivation of `operand := ['#'] level`, the loosest one. -/
inductive OperandTree : List Token → Expr → Type where
  | plain {tokens : List Token} {e : Expr} (value : LevelTree .logicalOr tokens e) :
      OperandTree tokens e
  | immediate {hash : Token} {tokens : List Token} {e : Expr} (marked : hash.kind = .punct .hash)
      (value : LevelTree .logicalOr tokens e) : OperandTree (hash :: tokens) (.immediate e)

/-- A derivation of an expression of some level. -/
inductive LevelTree : Level → List Token → Expr → Type where
  | tighter {level next : Level} {tokens : List Token} {e : Expr}
      (below : level.tighter? = some next) (inner : LevelTree next tokens e) :
      LevelTree level tokens e
  | binary {level next : Level} {token : Token} {sign : Punct} {op : BinaryOp}
      {front back : List Token} {l r : Expr} (below : level.tighter? = some next)
      (signed : token.kind = .punct sign) (joins : level.binary? sign = some op)
      (left : LevelTree level front l) (right : LevelTree next back r) :
      LevelTree level (front ++ token :: back) (.binary op l r)
  | unary {level : Level} {token : Token} {sign : Punct} {op : UnaryOp} {tokens : List Token}
      {e : Expr} (signed : token.kind = .punct sign) (applies : level.unary? sign = some op)
      (operand : LevelTree level tokens e) : LevelTree level (token :: tokens) (.unary op e)
  | number {token : Token} {n : Number} (found : token.kind = .number n) :
      LevelTree .atom [token] (.number n)
  | text {token : Token} {content : String} {petscii : Bool}
      (found : token.kind = .text content petscii) :
      LevelTree .atom [token] (.text content petscii)
  | name {token : Token} {ident : String} (found : token.kind = .name ident) :
      LevelTree .atom [token] (.name ⟨ident, false⟩)
  | longName {mark token : Token} {ident : String} (marked : mark.kind = .punct .ampersand)
      (found : token.kind = .name ident) : LevelTree .atom [mark, token] (.name ⟨ident, true⟩)
  | paren {opener closer : Token} {tokens : List Token} {items : List Expr}
      (opens : opener.kind = .punct .leftParen) (closes : closer.kind = .punct .rightParen)
      (list : ItemsTree tokens items) :
      LevelTree .atom (opener :: tokens ++ [closer]) (.group items false)
  | bracket {opener closer : Token} {tokens : List Token} {items : List Expr}
      (opens : opener.kind = .punct .leftBracket) (closes : closer.kind = .punct .rightBracket)
      (list : ItemsTree tokens items) :
      LevelTree .atom (opener :: tokens ++ [closer]) (.group items true)

/-- A derivation of `operand (',' operand)*`. -/
inductive ItemsTree : List Token → List Expr → Type where
  | one {tokens : List Token} {e : Expr} (operand : OperandTree tokens e) : ItemsTree tokens [e]
  | more {comma : Token} {front back : List Token} {e : Expr} {items : List Expr}
      (divides : comma.kind = .punct .comma) (operand : OperandTree front e)
      (rest : ItemsTree back items) : ItemsTree (front ++ comma :: back) (e :: items)

end

/-! ## Readers, level by level -/

namespace Level

/-- What stands before the operands of a level once an operator of the level was read. -/
def after : Level → Expectation
  | logicalOr | logicalAnd | logicalNot => .logical
  | power => .power
  | _ => .operator

/-- The reader of a level. -/
def read (inner : OperandReader) : Level → OperandReader
  | logicalOr => readLogical inner
  | logicalAnd => readChain Punct.logicalAnd? .logical (readPrefixes Punct.logicalNot? .logical
      (readChain Punct.comparison? .operator (readBitwise inner)))
  | logicalNot => readPrefixes Punct.logicalNot? .logical
      (readChain Punct.comparison? .operator (readBitwise inner))
  | comparison => readChain Punct.comparison? .operator (readBitwise inner)
  | bitOr => readBitwise inner
  | bitXor => readChain Punct.bitXor? .operator
      (readChain Punct.bitAnd? .operator (readShift inner))
  | bitAnd => readChain Punct.bitAnd? .operator (readShift inner)
  | shift => readShift inner
  | sum => readChain Punct.sum? .operator
      (readChain Punct.product? .operator (readSigned inner))
  | product => readChain Punct.product? .operator (readSigned inner)
  | sign => readSigned inner
  | power => readChain Punct.power? .power (readAtom inner)
  | atom => readAtom inner

/-- Whether the operators of a level stand in front of their operands. -/
def leads : Level → Bool
  | logicalNot | sign => true
  | _ => false

theorem read_chain {level next : Level} (inner : OperandReader)
    (below : level.tighter? = some next) (chain : level.leads = false) :
    level.read inner = readChain level.binary? level.after (next.read inner) := by
  cases level <;> cases below <;> first | rfl | cases chain

theorem read_prefixes {level next : Level} (inner : OperandReader)
    (below : level.tighter? = some next) (leads : level.leads = true) :
    level.read inner = readPrefixes level.unary? level.after (next.read inner) := by
  cases level <;> cases below <;> first | rfl | cases leads

end Level

/-! ## What readers accept is derivable -/

/-- A reader that finds an operand consumes the tokens of a derivation of it. -/
def OperandReader.Finds (reader : OperandReader) (Tree : List Token → Expr → Type) : Prop :=
  ∀ ⦃expected : Expectation⦄ ⦃tokens rest : List Token⦄ ⦃e : Expr⦄,
    reader expected tokens = .ok (e, rest) → ∃ used, tokens = used ++ rest ∧ Nonempty (Tree used e)

section Sound

variable {inner : OperandReader} {level next : Level} {tokens rest : List Token} {e : Expr}

theorem readItems_finds (hinner : inner.Finds OperandTree) {close : Punct} {limit : Nat}
    {items : List Expr} (h : readItems inner close limit tokens = .ok (items, rest)) :
    ∃ used closer, tokens = used ++ closer :: rest ∧ closer.kind = .punct close ∧
      Nonempty (ItemsTree used items) := by
  induction limit generalizing tokens items with
  | zero => cases h
  | succ limit ih =>
    rw [readItems, bind_eq_ok] at h
    obtain ⟨⟨item, others⟩, hitem, h⟩ := h
    obtain ⟨used, rfl, ⟨tree⟩⟩ := hinner hitem
    dsimp only at h
    split at h
    · rename_i sign span text left
      split at h
      · rename_i hclose
        subst hclose
        cases h
        exact ⟨used, _, rfl, rfl, ⟨.one tree⟩⟩
      · split at h
        · rename_i hcomma
          subst hcomma
          rw [bind_eq_ok] at h
          obtain ⟨⟨more, found⟩, hmore, h⟩ := h
          cases h
          obtain ⟨back, closer, rfl, hcloser, ⟨list⟩⟩ := ih hmore
          refine ⟨used ++ ⟨.punct .comma, span, text⟩ :: back, closer, ?_, hcloser, ?_⟩
          · simp
          · exact ⟨.more rfl tree list⟩
        · cases h
    · cases h

theorem readAtom_finds (hinner : inner.Finds OperandTree) :
    (readAtom inner).Finds (LevelTree .atom) := by
  intro expected tokens rest e h
  unfold readAtom at h
  split at h
  · cases h
    exact ⟨[_], rfl, ⟨.number rfl⟩⟩
  · cases h
    exact ⟨[_], rfl, ⟨.text rfl⟩⟩
  · cases h
    exact ⟨[_], rfl, ⟨.name rfl⟩⟩
  · split at h
    · cases h
      exact ⟨[_, _], rfl, ⟨.longName rfl rfl⟩⟩
    · cases h
  · rename_i span text _
    rw [bind_eq_ok] at h
    obtain ⟨⟨items, others⟩, hitems, h⟩ := h
    cases h
    obtain ⟨used, closer, rfl, hcloser, ⟨list⟩⟩ := readItems_finds hinner hitems
    have opens : (Token.mk (.punct .leftParen) span text).kind = .punct .leftParen := rfl
    exact ⟨_, by simp, ⟨.paren opens hcloser list⟩⟩
  · rename_i span text _
    rw [bind_eq_ok] at h
    obtain ⟨⟨items, others⟩, hitems, h⟩ := h
    cases h
    obtain ⟨used, closer, rfl, hcloser, ⟨list⟩⟩ := readItems_finds hinner hitems
    have opens : (Token.mk (.punct .leftBracket) span text).kind = .punct .leftBracket := rfl
    exact ⟨_, by simp, ⟨.bracket opens hcloser list⟩⟩
  · cases h

/-- Going on with the operators of a level extends the derivation of what stands before them. -/
theorem readChainRest_finds {reader : OperandReader} {after : Expectation} {limit : Nat}
    {left : Expr} {front : List Token} (below : level.tighter? = some next)
    (hnext : reader.Finds (LevelTree next)) (tree : LevelTree level front left)
    (h : readChainRest level.binary? after reader limit left tokens = .ok (e, rest)) :
    ∃ used, tokens = used ++ rest ∧ Nonempty (LevelTree level (front ++ used) e) := by
  induction limit generalizing left front tokens with
  | zero =>
    cases h
    exact ⟨[], rfl, ⟨by simpa using tree⟩⟩
  | succ limit ih =>
    unfold readChainRest at h
    split at h
    · rename_i found _ sign span text others heq
      cases heq
      split at h
      · rename_i op hop
        rw [bind_eq_ok] at h
        obtain ⟨⟨right, behind⟩, hright, h⟩ := h
        obtain ⟨back, rfl, ⟨rightTree⟩⟩ := hnext hright
        have signed : (Token.mk (.punct sign) span text).kind = .punct sign := rfl
        obtain ⟨used, rfl, ⟨whole⟩⟩ := ih (.binary below signed hop tree rightTree) h
        refine ⟨⟨.punct sign, span, text⟩ :: back ++ used, by simp, ⟨?_⟩⟩
        rw [List.append_assoc] at whole
        exact whole
      · cases h
        exact ⟨[], rfl, ⟨by simpa using tree⟩⟩
    · cases h
      exact ⟨[], rfl, ⟨by simpa using tree⟩⟩

theorem readChain_finds {reader : OperandReader} {after : Expectation}
    (below : level.tighter? = some next) (hnext : reader.Finds (LevelTree next)) :
    (readChain level.binary? after reader).Finds (LevelTree level) := by
  intro expected tokens rest e h
  rw [readChain, bind_eq_ok] at h
  obtain ⟨⟨first, others⟩, hfirst, h⟩ := h
  obtain ⟨front, rfl, ⟨tree⟩⟩ := hnext hfirst
  obtain ⟨used, rfl, whole⟩ := readChainRest_finds below hnext (.tighter below tree) h
  exact ⟨front ++ used, by simp, whole⟩

theorem readPrefixes_finds {reader : OperandReader} {after : Expectation}
    (below : level.tighter? = some next) (hnext : reader.Finds (LevelTree next)) :
    OperandReader.Finds (readPrefixes level.unary? after reader) (LevelTree level) := by
  intro expected tokens
  induction tokens generalizing expected with
  | nil =>
    intro rest e h
    obtain ⟨used, hused, ⟨tree⟩⟩ := hnext h
    exact ⟨used, hused, ⟨.tighter below tree⟩⟩
  | cons token tokens ih =>
    intro rest e h
    unfold readPrefixes at h
    split at h
    · rename_i sign span text others heq
      cases heq
      split at h
      · rename_i op hop
        rw [bind_eq_ok] at h
        obtain ⟨⟨operand, left⟩, hoperand, h⟩ := h
        cases h
        obtain ⟨used, rfl, ⟨tree⟩⟩ := ih hoperand
        exact ⟨_ :: used, rfl, ⟨.unary rfl hop tree⟩⟩
      · obtain ⟨used, hused, ⟨tree⟩⟩ := hnext h
        exact ⟨used, hused, ⟨.tighter below tree⟩⟩
    · obtain ⟨used, hused, ⟨tree⟩⟩ := hnext h
      exact ⟨used, hused, ⟨.tighter below tree⟩⟩

theorem Level.read_finds_of_tighter (below : level.tighter? = some next)
    (hnext : (next.read inner).Finds (LevelTree next)) :
    (level.read inner).Finds (LevelTree level) := by
  cases hleads : level.leads with
  | false =>
    rw [Level.read_chain inner below hleads]
    exact readChain_finds below hnext
  | true =>
    rw [Level.read_prefixes inner below hleads]
    exact readPrefixes_finds below hnext

end Sound

namespace Level

/-- The place of a level, counted from the loosest. -/
def rank : Level → Nat
  | logicalOr => 0
  | logicalAnd => 1
  | logicalNot => 2
  | comparison => 3
  | bitOr => 4
  | bitXor => 5
  | bitAnd => 6
  | shift => 7
  | sum => 8
  | product => 9
  | sign => 10
  | power => 11
  | atom => 12

theorem rank_of_tighter {level next : Level} (below : level.tighter? = some next) :
    next.rank = level.rank + 1 := by
  cases level <;> cases below <;> rfl

/-- What holds of atoms, and of a level when it holds of the next tighter one, holds of all. -/
theorem tightestFirst {motive : Level → Prop} (atom : motive .atom)
    (looser : ∀ level next, level.tighter? = some next → motive next → motive level)
    (level : Level) : motive level := by
  cases hnext : level.tighter? with
  | none =>
    cases level <;> first | exact atom | cases hnext
  | some next => exact looser level next hnext (tightestFirst atom looser next)
termination_by 12 - level.rank
decreasing_by
  have hrank := rank_of_tighter hnext
  have hlast : next.rank ≤ 12 := by cases next <;> decide
  omega

theorem read_finds {inner : OperandReader} (hinner : inner.Finds OperandTree) (level : Level) :
    (level.read inner).Finds (LevelTree level) :=
  tightestFirst (motive := fun level => (level.read inner).Finds (LevelTree level))
    (readAtom_finds hinner) (fun _ _ below hnext => read_finds_of_tighter below hnext) level

end Level

theorem readOperandTo_finds (depth : Nat) : (readOperandTo depth).Finds OperandTree := by
  induction depth with
  | zero =>
    intro expected tokens rest e h
    cases h
  | succ depth ih =>
    intro expected tokens rest e h
    rw [readOperandTo] at h
    unfold readOperandWith at h
    split at h
    · rw [bind_eq_ok] at h
      obtain ⟨⟨operand, left⟩, hoperand, h⟩ := h
      cases h
      obtain ⟨used, rfl, ⟨tree⟩⟩ := Level.logicalOr.read_finds ih hoperand
      exact ⟨_ :: used, rfl, ⟨.immediate rfl tree⟩⟩
    · obtain ⟨used, hused, ⟨tree⟩⟩ := Level.logicalOr.read_finds ih h
      exact ⟨used, hused, ⟨.plain tree⟩⟩

end Asm65816
