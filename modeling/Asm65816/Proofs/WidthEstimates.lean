import Asm65816.Proofs.MachineCode
import Asm65816.Proofs.ModeChoice
import Asm65816.Proofs.OperatorWidths

/-!
# Estimates of expressions

The opcode of an instruction is chosen by estimated widths, and its operands are checked by the
widths that their values state. An expression is wider than its estimate only when the estimate of
an open operation, one that its own rests on, overlooks something: `l % 16` is judged to need one
byte, but takes over the two bytes of `l`. An instruction may therefore be refused in the mode that
was chosen for it. Expressions that select bits of labels are never refused.
-/

namespace Asm65816

/-- A scope that gives names the addresses of labels: a short name an offset in a bank, with the
bytes it needs, and a long one an address of three bytes. -/
def Scope.OfLabels (scope : Scope) : Prop :=
  ∀ name n, scope name = some n →
    if name.long then 0 ≤ n.value ∧ n.value ≤ 0xFFFFFF ∧ n.width = 3
    else 0 ≤ n.value ∧ n.value ≤ 0xFFFF ∧ n.width = requiredBytes n.value

/-- Labels at addresses of three bytes are seen so from everywhere. -/
theorem labelScope_ofLabels {labels : List Resolution}
    (hlabels : ∀ entry ∈ labels, 0 ≤ entry.address ∧ entry.address ≤ 0xFFFFFF)
    (key : Option String) (address : Int) : (labelScope labels key address).OfLabels := by
  intro name n h
  simp only [labelScope, Option.bind_eq_bind, Option.bind_eq_some_iff] at h
  obtain ⟨current, -, entry, hentry, h⟩ := h
  obtain ⟨hlow, hhigh⟩ := hlabels entry (List.mem_of_find?_eq_some hentry)
  split at h
  case isTrue hlong =>
    cases h
    rw [if_pos hlong]
    refine ⟨hlow, hhigh, Nat.max_eq_right ?_⟩
    exact requiredBytes_le (by decide) (.of_unsigned hlow (by simp only [fieldSpan]; omega))
  case isFalse hlong =>
    cases h
    rw [if_neg hlong]
    exact ⟨Int.emod_nonneg _ (by decide), by simp only [Number.ofHex]; omega, rfl⟩

namespace Expr

/-! ## Literals -/

mutual

/-- The numbers that an expression is written with, those in bound values included. -/
def literals : Expr → List Number
  | .number n => [n]
  | .name _ => []
  | .bound _ value => value.literals
  | .unary _ e => e.literals
  | .binary _ l r => l.literals ++ r.literals
  | .group items _ => literalsAll items
  | .text _ _ => []
  | .immediate e => e.literals

/-- The numbers of the items of a group. -/
def literalsAll : List Expr → List Number
  | [] => []
  | e :: rest => e.literals ++ literalsAll rest

end

/-- Every literal states at least the bytes that its value needs. -/
def StatesWidths (e : Expr) : Prop := ∀ n ∈ e.literals, requiredBytes n.value ≤ n.width

instance (e : Expr) : Decidable e.StatesWidths := inferInstanceAs (Decidable (∀ n ∈ _, _))

/-- The operands of an operation have no further literals. -/
theorem StatesWidths.of_binary {op : BinaryOp} {l r : Expr}
    (h : (Expr.binary op l r).StatesWidths) : l.StatesWidths ∧ r.StatesWidths := by
  simp only [StatesWidths, literals, List.mem_append] at h
  exact ⟨fun n hn => h n (.inl hn), fun n hn => h n (.inr hn)⟩

/-- The first item of a group has no further literals. -/
theorem StatesWidths.of_group {first : Expr} {rest : List Expr} {long : Bool}
    (h : (Expr.group (first :: rest) long).StatesWidths) : first.StatesWidths := by
  simp only [StatesWidths, literals, literalsAll, List.mem_append] at h
  exact fun n hn => h n (.inl hn)

/-- The part of an operand that carries its value has no further literals. -/
theorem literals_valuePart {e : Expr} {n : Number} (h : n ∈ e.valuePart.literals) :
    n ∈ e.literals := by
  induction e using Expr.inductionOn with
  | immediate operand ih => exact ih h
  | group items long ih =>
    cases items with
    | nil => exact h
    | cons first rest => exact List.mem_append_left _ h
  | bound name value ih =>
    rw [valuePart] at h
    split at h
    · exact h
    · exact ih h
  | _ => exact h

/-- The part of an operand that carries its value states the bytes that it needs. -/
theorem StatesWidths.valuePart {e : Expr} (h : e.StatesWidths) : e.valuePart.StatesWidths :=
  fun n hn => h n (literals_valuePart hn)

/-! ## Estimates of expressions -/

/-- An operation is opened by a name that has no value yet. -/
def IsOpen (e : Expr) : Prop := ∀ n, e.closedValue ≠ .ok n

/-- The parts of an expression whose estimates its own estimate rests on. The operands of what is
evaluated without labels are none, and neither are those of what yields one byte. -/
inductive RestsOn : Expr → Expr → Prop where
  | self (e : Expr) : RestsOn e e
  | bound {value part : Expr} (name : Name) (h : RestsOn value part) :
      RestsOn (.bound name value) part
  | negate {operand part : Expr} (h : RestsOn operand part) : RestsOn (.unary .negate operand) part
  | plus {operand part : Expr} (h : RestsOn operand part) : RestsOn (.unary .plus operand) part
  | complement {operand part : Expr} (h : RestsOn operand part) :
      RestsOn (.unary .complement operand) part
  | left {op : BinaryOp} {l r part : Expr} (hopen : (Expr.binary op l r).IsOpen)
      (judged : op.isBoolean = false) (h : RestsOn l part) : RestsOn (.binary op l r) part
  | right {op : BinaryOp} {l r part : Expr} (hopen : (Expr.binary op l r).IsOpen)
      (judged : op.estimatesRight = true) (h : RestsOn r part) : RestsOn (.binary op l r) part
  | group {single part : Expr} (long : Bool) (h : RestsOn single part) :
      RestsOn (.group [single] long) part
  | immediate {operand part : Expr} (h : RestsOn operand part) : RestsOn (.immediate operand) part

/-- An open operation whose estimate overlooks something, though those of its operands do not. -/
structure OverlookingOperation (scope : Scope) (op : BinaryOp) (l r : Expr) (left right : Nat)
    (a b : Number) (value : Int) : Prop where
  isOpen : (Expr.binary op l r).IsOpen
  judged : op.isBoolean = false
  leftEstimate : l.guessWidth = some left
  rightEstimate : r.guessWidth = some right
  leftValue : l.collapse scope = .ok a
  rightValue : r.collapse scope = .ok b
  leftWithin : a.width ≤ left
  rightWithin : op.estimatesRight = true → b.width ≤ right
  result : op.applyValue a b = .ok value
  overlooks : op.Overlooks left right r.closedValue.toOption.isSome a b value

/-- An expression whose estimate overlooks something. -/
def Overlooks (scope : Scope) (e : Expr) : Prop :=
  ∃ op l r left right a b value, e = .binary op l r ∧
    OverlookingOperation scope op l r left right a b value

/-- An expression whose estimate rests on one that overlooks something. -/
def RestsOnOverlooking (scope : Scope) (e : Expr) : Prop :=
  ∃ part, e.RestsOn part ∧ part.Overlooks scope

/-- What a part of an expression rests on, the expression does. -/
theorem RestsOnOverlooking.through {scope : Scope} {e inner : Expr}
    (h : inner.RestsOnOverlooking scope)
    (hparts : ∀ {part}, inner.RestsOn part → e.RestsOn part) : e.RestsOnOverlooking scope := by
  obtain ⟨part, hpart, hoverlooks⟩ := h
  exact ⟨part, hparts hpart, hoverlooks⟩

variable {scope : Scope} {e : Expr} {n : Number}

/-- An operation is evaluated from its operands. -/
theorem collapse_binary_eq_ok {op : BinaryOp} {l r : Expr}
    (h : (Expr.binary op l r).collapse scope = .ok n) :
    ∃ a b value, l.collapse scope = .ok a ∧ r.collapse scope = .ok b ∧
      op.applyValue a b = .ok value ∧ n = ⟨value, a.radix, op.resultWidth a b value⟩ := by
  simp only [collapse_binary, bind_eq_ok] at h
  obtain ⟨a, ha, b, hb, happly⟩ := h
  obtain ⟨value, hvalue, hresult⟩ := bind_eq_ok.mp happly
  exact ⟨a, b, value, ha, hb, hvalue, (Except.ok.inj hresult).symm⟩

/-- The address of a label is within the estimate of its name. -/
theorem guessWidth_name (hscope : scope.OfLabels) {name : Name}
    (h : (Expr.name name).collapse scope = .ok n) :
    (Expr.name name).guessWidth = some (if name.long then 3 else 2) ∧
      n.Within (if name.long then 3 else 2) := by
  refine ⟨rfl, ?_⟩
  rw [collapse] at h
  split at h
  case h_1 value hvalue =>
    cases h
    have hlabel := hscope name n hvalue
    split at hlabel
    case isTrue hlong =>
      obtain ⟨hlow, hhigh, hwidth⟩ := hlabel
      rw [if_pos hlong]
      exact ⟨by omega, by omega, by decide, hlow, by simp only [fieldSpan]; omega⟩
    case isFalse hlong =>
      obtain ⟨hlow, hhigh, hwidth⟩ := hlabel
      have hfield : InUnsignedField n.value 2 := ⟨hlow, by simp only [fieldSpan]; omega⟩
      rw [if_neg hlong]
      exact ⟨hwidth ▸ requiredBytes_pos _, hwidth ▸ requiredBytes_le (by decide) hfield.inField,
        by decide, hfield⟩
  case h_2 => cases h

/-- A value states at least one byte when the literals and the names of the expression do. -/
theorem one_le_width_of_literals (hscope : ∀ name value, scope name = some value → 1 ≤ value.width)
    (hliterals : ∀ value ∈ e.literals, 1 ≤ value.width) (h : e.collapse scope = .ok n) :
    1 ≤ n.width := by
  induction e using Expr.inductionOn generalizing n with
  | number value =>
    cases h
    exact hliterals value (List.mem_singleton_self value)
  | name name =>
    rw [collapse] at h
    split at h
    case h_1 value hvalue =>
      cases h
      exact hscope name n hvalue
    case h_2 => cases h
  | bound name value ih => exact ih hliterals h
  | unary op operand ih =>
    rw [collapse_unary, bind_eq_ok] at h
    obtain ⟨value, hvalue, happly⟩ := h
    have hwidth := ih hliterals hvalue
    rw [UnaryOp.apply_width happly]
    cases op with
    | negate | plus | complement => exact hwidth
    | lowByte | highByte | logicalNot => exact Nat.le_refl 1
  | binary op l r ihl ihr =>
    obtain ⟨a, b, value, -, -, -, rfl⟩ := collapse_binary_eq_ok h
    have hpos := requiredBytes_pos value
    dsimp only [BinaryOp.resultWidth]
    split
    · omega
    · split <;> omega
  | group items long ih =>
    obtain ⟨single, rfl, hsingle⟩ := collapse_group_eq_ok.mp h
    exact ih single List.mem_cons_self
      (fun value hvalue => hliterals value (List.mem_append_left _ hvalue)) hsingle
  | text content petscii => cases h
  | immediate operand ih => exact ih hliterals h

/-- Every value of an expression among labels states at least one byte. -/
theorem one_le_width (hscope : scope.OfLabels) (hliterals : e.StatesWidths)
    (h : e.collapse scope = .ok n) : 1 ≤ n.width := by
  refine one_le_width_of_literals (fun name value hvalue => ?_) (fun value hvalue => ?_) h
  · have hname : (Expr.name name).collapse scope = .ok value := by rw [collapse, hvalue]
    exact (guessWidth_name hscope hname).2.positive
  · exact Nat.le_trans (requiredBytes_pos _) (hliterals value hvalue)

/-- The estimate of a truth value is one byte. -/
theorem guessWidth_boolean {op : BinaryOp} (hboolean : op.isBoolean = true) (l r : Expr) :
    (Expr.binary op l r).guessWidth = some 1 := by
  rw [guessWidth]
  split
  case h_1 closed hclosed =>
    obtain ⟨a, b, value, -, -, -, rfl⟩ := collapse_binary_eq_ok hclosed
    exact congrArg some (if_pos hboolean)
  case h_2 => exact if_pos hboolean

/-- The estimate of an open operation, from those of its operands. -/
theorem guessWidth_binary {op : BinaryOp} {l r : Expr} {left right : Nat} {b : Number}
    (hopen : (Expr.binary op l r).IsOpen) (hjudged : op.isBoolean = false)
    (hleft : l.guessWidth = some left) (hright : r.guessWidth = some right)
    (hb : r.collapse scope = .ok b) :
    (Expr.binary op l r).guessWidth =
      some (op.estimate left right r.closedValue.toOption.isSome b.value) := by
  have hknown : ∀ known, r.closedValue.toOption.map Number.value = some known →
      known = b.value := by
    intro known h
    obtain ⟨found, hfound, rfl⟩ := Option.map_eq_some_iff.mp h
    have hvalue := collapse_of_closedValue (toOption_eq_some.mp hfound) scope
    rw [Except.ok.inj (hvalue.symm.trans hb)]
  rw [guessWidth]
  split
  case h_1 closed hclosed => exact absurd hclosed (hopen closed)
  case h_2 cause hcause =>
    rw [if_neg (by simp [hjudged]), hleft, hright]
    dsimp only
    rw [BinaryOp.guessWidth_eq hjudged hknown, Option.isSome_map]

/-- What is overlooked makes an estimate too small. -/
theorem Overlooks.guessWidth_lt (hscope : scope.OfLabels) (hliterals : e.StatesWidths)
    (h : e.Overlooks scope) :
    ∃ guess n, e.guessWidth = some guess ∧ e.collapse scope = .ok n ∧ guess < n.width := by
  obtain ⟨op, l, r, left, right, a, b, value, rfl, h⟩ := h
  obtain ⟨hliteralsl, hliteralsr⟩ := hliterals.of_binary
  have ha := one_le_width hscope hliteralsl h.leftValue
  have hb := one_le_width hscope hliteralsr h.rightValue
  refine ⟨_, ⟨value, a.radix, op.resultWidth a b value⟩,
    guessWidth_binary h.isOpen h.judged h.leftEstimate h.rightEstimate h.rightValue, ?_, ?_⟩
  · simp only [collapse_binary, bind_eq_ok]
    exact ⟨a, h.leftValue, b, h.rightValue, bind_eq_ok.mpr ⟨value, h.result, rfl⟩⟩
  · refine (BinaryOp.estimate_lt_iff h.judged h.result (Nat.le_trans ha h.leftWithin) ?_).mpr
      h.overlooks
    exact fun hright => Nat.le_trans hb (h.rightWithin hright)

/-- An open operation is within its estimate, or overlooks something, or an operand that it rests
on does. -/
theorem binary_width_le_or {op : BinaryOp} {l r : Expr} {a b : Number} {left right : Nat}
    {value : Int} (hopen : (Expr.binary op l r).IsOpen) (hjudged : op.isBoolean = false)
    (ha : l.collapse scope = .ok a) (hb : r.collapse scope = .ok b) (hposa : 1 ≤ a.width)
    (hposb : 1 ≤ b.width) (hvalue : op.applyValue a b = .ok value)
    (hleft : l.guessWidth = some left) (hright : r.guessWidth = some right)
    (hwithinl : a.width ≤ left ∨ l.RestsOnOverlooking scope)
    (hwithinr : b.width ≤ right ∨ r.RestsOnOverlooking scope) :
    op.resultWidth a b value ≤
        op.estimate left right r.closedValue.toOption.isSome b.value ∨
      (Expr.binary op l r).RestsOnOverlooking scope := by
  rcases hwithinl with hwithinl | hover
  case inr => exact .inr (hover.through (.left hopen hjudged))
  by_cases hrests : op.estimatesRight = true ∧ r.RestsOnOverlooking scope
  · exact .inr (hrests.2.through (.right hopen hrests.1))
  have hrightWithin : op.estimatesRight = true → b.width ≤ right :=
    fun hop => hwithinr.resolve_right fun hover => hrests ⟨hop, hover⟩
  refine (Nat.lt_or_ge _ _).symm.imp id fun hlt => ?_
  refine ⟨_, .self _, op, l, r, left, right, a, b, value, rfl, hopen, hjudged, hleft, hright, ha,
    hb, hwithinl, hrightWithin, hvalue, ?_⟩
  exact (BinaryOp.estimate_lt_iff hjudged hvalue (Nat.le_trans hposa hwithinl)
    fun hop => Nat.le_trans hposb (hrightWithin hop)).mp hlt

/-- An expression with a value has an estimate, and is within it unless the estimate of a part that
it rests on overlooks something. -/
theorem width_le_guessWidth_or (hscope : scope.OfLabels) (hliterals : e.StatesWidths)
    (h : e.collapse scope = .ok n) :
    ∃ guess, e.guessWidth = some guess ∧
      (n.width ≤ guess ∨ e.RestsOnOverlooking scope) := by
  induction e using Expr.inductionOn generalizing n with
  | number value =>
    cases h
    exact ⟨value.width, rfl, .inl (Nat.le_refl _)⟩
  | name name =>
    obtain ⟨hguess, hwithin⟩ := guessWidth_name hscope h
    exact ⟨_, hguess, .inl hwithin.width⟩
  | bound name value ih =>
    obtain ⟨guess, hguess, hwithin⟩ := ih hliterals h
    refine ⟨if name.long then max guess 3 else guess, by simp [guessWidth, hguess], ?_⟩
    refine hwithin.imp (fun hle => ?_) (·.through (.bound name))
    split
    · exact Nat.le_trans hle (Nat.le_max_left _ _)
    · exact hle
  | unary op operand ih =>
    rw [collapse_unary, bind_eq_ok] at h
    obtain ⟨value, hvalue, happly⟩ := h
    obtain ⟨guess, hguess, hwithin⟩ := ih hliterals hvalue
    rw [UnaryOp.apply_width happly]
    cases op with
    | negate => exact ⟨guess, hguess, hwithin.imp id (·.through .negate)⟩
    | plus => exact ⟨guess, hguess, hwithin.imp id (·.through .plus)⟩
    | complement => exact ⟨guess, hguess, hwithin.imp id (·.through .complement)⟩
    | lowByte | highByte | logicalNot => exact ⟨1, rfl, .inl (Nat.le_refl 1)⟩
  | binary op l r ihl ihr =>
    obtain ⟨a, b, value, ha, hb, hvalue, hresult⟩ := collapse_binary_eq_ok h
    cases hjudged : op.isBoolean with
    | true =>
      subst hresult
      exact ⟨1, guessWidth_boolean hjudged l r, .inl (Nat.le_of_eq (if_pos hjudged))⟩
    | false =>
      cases hclosed : (Expr.binary op l r).closedValue with
      | ok closed =>
        obtain rfl := Except.ok.inj (h.symm.trans (collapse_of_closedValue hclosed scope))
        exact ⟨n.width, by rw [guessWidth, hclosed], .inl (Nat.le_refl _)⟩
      | error cause =>
        subst hresult
        have hopen : (Expr.binary op l r).IsOpen := by simp [IsOpen, hclosed]
        obtain ⟨hliteralsl, hliteralsr⟩ := hliterals.of_binary
        obtain ⟨left, hleft, hwithinl⟩ := ihl hliteralsl ha
        obtain ⟨right, hright, hwithinr⟩ := ihr hliteralsr hb
        exact ⟨_, guessWidth_binary hopen hjudged hleft hright hb,
          binary_width_le_or hopen hjudged ha hb (one_le_width hscope hliteralsl ha)
            (one_le_width hscope hliteralsr hb) hvalue hleft hright hwithinl hwithinr⟩
  | group items long ih =>
    obtain ⟨single, rfl, hsingle⟩ := collapse_group_eq_ok.mp h
    obtain ⟨guess, hguess, hwithin⟩ := ih single List.mem_cons_self hliterals.of_group hsingle
    exact ⟨guess, hguess, hwithin.imp id (·.through (.group long))⟩
  | text content petscii => cases h
  | immediate operand ih =>
    obtain ⟨guess, hguess, hwithin⟩ := ih hliterals h
    exact ⟨guess, hguess, hwithin.imp id (·.through .immediate)⟩

/-! ## Expressions that select bits -/

/-- Expressions without arithmetic: unsigned numbers and names, of which bytes and bits are
selected and put together, and truth values. -/
inductive SelectsBits : Expr → Prop where
  | number {n : Number} (unsigned : 0 ≤ n.value) (short : n.width < 8) : SelectsBits (.number n)
  | name (name : Name) : SelectsBits (.name name)
  | bound {value : Expr} (name : Name) (h : SelectsBits value) : SelectsBits (.bound name value)
  | plus {operand : Expr} (h : SelectsBits operand) : SelectsBits (.unary .plus operand)
  | lowByte (operand : Expr) : SelectsBits (.unary .lowByte operand)
  | highByte (operand : Expr) : SelectsBits (.unary .highByte operand)
  | logicalNot (operand : Expr) : SelectsBits (.unary .logicalNot operand)
  | truth {op : BinaryOp} (boolean : op.isBoolean = true) (l r : Expr) :
      SelectsBits (.binary op l r)
  | bits {op : BinaryOp} {l r : Expr} (selects : op.selectsBits = true) (left : SelectsBits l)
      (right : op.estimatesRight = true → SelectsBits r) : SelectsBits (.binary op l r)
  | group {single : Expr} (long : Bool) (h : SelectsBits single) :
      SelectsBits (.group [single] long)
  | immediate {operand : Expr} (h : SelectsBits operand) : SelectsBits (.immediate operand)

/-- Selected bits are within their estimate. -/
theorem SelectsBits.within (hscope : scope.OfLabels) (h : e.SelectsBits)
    (hliterals : e.StatesWidths) (hvalue : e.collapse scope = .ok n) :
    ∃ guess, e.guessWidth = some guess ∧ n.Within guess := by
  induction h generalizing n with
  | @number value unsigned short =>
    cases hvalue
    have hstates := hliterals value (List.mem_singleton_self value)
    exact ⟨_, rfl, .stated hstates short unsigned⟩
  | name name =>
    obtain ⟨hguess, hwithin⟩ := guessWidth_name hscope hvalue
    exact ⟨_, hguess, hwithin⟩
  | bound name h ih =>
    obtain ⟨guess, hguess, hwithin⟩ := ih hliterals hvalue
    refine ⟨if name.long then max guess 3 else guess, by simp [guessWidth, hguess], ?_⟩
    have hshort := hwithin.short
    split
    · exact hwithin.mono (Nat.le_max_left _ _) (by omega)
    · exact hwithin
  | plus h ih =>
    rw [collapse_unary, bind_eq_ok] at hvalue
    obtain ⟨value, hvalue, happly⟩ := hvalue
    cases happly
    exact ih hliterals hvalue
  | lowByte operand | highByte operand =>
    rw [collapse_unary, bind_eq_ok] at hvalue
    obtain ⟨value, -, happly⟩ := hvalue
    cases happly
    exact ⟨1, rfl, .byte rfl (Int.emod_nonneg _ (by decide)) (Int.emod_lt_of_pos _ (by decide))⟩
  | logicalNot operand =>
    rw [collapse_unary, bind_eq_ok] at hvalue
    obtain ⟨value, -, happly⟩ := hvalue
    cases happly
    exact ⟨1, rfl, .byte rfl (truthWord_range _).1 (truthWord_range _).2⟩
  | @truth op boolean l r =>
    obtain ⟨a, b, value, -, -, happly, rfl⟩ := collapse_binary_eq_ok hvalue
    obtain ⟨truth, rfl⟩ := BinaryOp.applyValue_truth boolean happly
    refine ⟨1, guessWidth_boolean boolean l r, .byte ?_ (truthWord_range _).1 (truthWord_range _).2⟩
    exact if_pos boolean
  | @bits op l r selects left right ihl ihr =>
    obtain ⟨a, b, value, ha, hb, happly, rfl⟩ := collapse_binary_eq_ok hvalue
    obtain ⟨hliteralsl, hliteralsr⟩ := hliterals.of_binary
    obtain ⟨first, hfirst, hwithina⟩ := ihl hliteralsl ha
    obtain ⟨second, hsecond, -⟩ := width_le_guessWidth_or hscope hliteralsr hb
    have hwithinb : op.estimatesRight = true → b.Within second := by
      intro hop
      obtain ⟨found, hfound, hwithin⟩ := ihr hop hliteralsr hb
      cases hfound.symm.trans hsecond
      exact hwithin
    have hjudged := BinaryOp.isBoolean_of_selectsBits selects
    have hstates : requiredBytes value ≤ op.resultWidth a b value :=
      BinaryOp.requiredBytes_le_resultWidth hjudged
    obtain ⟨hshort, hunsigned, hwidth⟩ := BinaryOp.estimate_of_within selects happly hwithina
      hwithinb r.closedValue.toOption.isSome
    cases hclosed : (Expr.binary op l r).closedValue with
    | ok closed =>
      cases hvalue.symm.trans (collapse_of_closedValue hclosed scope)
      refine ⟨op.resultWidth a b value, by rw [guessWidth, hclosed], ?_⟩
      exact .stated hstates (by dsimp only; omega) hunsigned.1
    | error cause =>
      have hopen : (Expr.binary op l r).IsOpen := by simp [IsOpen, hclosed]
      refine ⟨_, guessWidth_binary hopen hjudged hfirst hsecond hb, ?_⟩
      exact ⟨Nat.le_trans (requiredBytes_pos _) hstates, hwidth, hshort, hunsigned⟩
  | group long h ih =>
    obtain ⟨single, hsingle, hvalue⟩ := collapse_group_eq_ok.mp hvalue
    cases hsingle
    exact ih hliterals.of_group hvalue
  | immediate h ih => exact ih hliterals hvalue

/-! ## Operands of instructions -/

/-- Whether an operand may need at most `limit` bytes, by its estimate. -/
theorem fits_iff {limit : Nat} :
    e.fits limit = true ↔ ∃ guess, e.guessWidth = some guess ∧ guess ≤ limit := by
  unfold fits
  cases e.guessWidth with
  | none => simp
  | some guess => simp

/-- A name that fits is bound to what fits. -/
theorem fits_of_bound {name : Name} {value : Expr} {limit : Nat}
    (h : (Expr.bound name value).fits limit = true) : value.fits limit = true := by
  obtain ⟨guess, hguess, hle⟩ := fits_iff.mp h
  obtain ⟨inner, hinner, rfl⟩ := Option.map_eq_some_iff.mp hguess
  refine fits_iff.mpr ⟨inner, hinner, ?_⟩
  split at hle <;> omega

/-- The part that carries the value of an operand fits where the operand does. -/
theorem fits_valuePart {limit : Nat} (h : e.fits limit = true) :
    e.valuePart.fits limit = true := by
  induction e using Expr.inductionOn with
  | immediate operand ih => exact ih h
  | group items long ih =>
    match items with
    | [] | [single] => exact h
    | first :: second :: rest => cases h
  | bound name value ih =>
    rw [valuePart]
    split
    · exact h
    · exact ih (fits_of_bound h)
  | _ => exact h

/-- An immediate operand carries its value behind the sign. -/
theorem valuePart_of_immediateOperand? {inner : Expr} (h : e.immediateOperand? = some inner) :
    e.valuePart = inner.valuePart := by
  induction e using Expr.inductionOn with
  | immediate operand ih =>
    cases h
    rfl
  | bound name value ih =>
    have hvalue : value.immediateOperand? = some inner := h
    have hplain : value.isPlain = false := by
      unfold immediateOperand? at hvalue
      split at hvalue
      case h_1 hshape => simp [isPlain, isImmediate, hshape]
      case h_2 => cases hvalue
    rw [valuePart, if_neg (by simp [hplain]), ih hvalue]
  | _ => cases h

/-- A group carries its value in the first item. -/
theorem valuePart_of_groupItems? {first : Expr} {rest : List Expr} {long : Bool}
    (h : e.groupItems? = some (first :: rest, long)) : e.valuePart = first := by
  induction e using Expr.inductionOn with
  | group items found ih =>
    cases h
    rfl
  | bound name value ih =>
    have hvalue : value.groupItems? = some (first :: rest, long) := h
    have hplain : value.isPlain = false := by
      unfold groupItems? at hvalue
      split at hvalue
      case h_1 hshape => simp [isPlain, isGroup, hshape]
      case h_2 => cases hvalue
    rw [valuePart, if_neg (by simp [hplain]), ih hvalue]
  | _ => cases h

end Expr

namespace OperandKind.Takes

variable {kind : OperandKind} {limit : Nat} {operands : List Expr} {operand : Expr}

/-- The first operand carries a value that fits, unless it is a register, a bank or the target of a
branch. -/
theorem fits_first (h : kind.Takes limit operands) (hkind : kind ∉ [.accumulator, .move, .branch])
    (hoperand : operands[0]? = some operand) : operand.valuePart.fits limit = true := by
  cases h with
  | bare => cases hoperand
  | omitted | accumulator | move | branch => simp at hkind
  | immediate sign fits =>
    cases hoperand
    rw [Expr.valuePart_of_immediateOperand? sign]
    exact Expr.fits_valuePart fits
  | direct _ fits | indexed _ fits _ =>
    cases hoperand
    exact Expr.fits_valuePart fits
  | indirect brackets | indirectIndexed brackets _ =>
    cases hoperand
    obtain ⟨base, others, long, hitems, -, hfits⟩ := brackets
    rw [Expr.valuePart_of_groupItems? hitems]
    exact hfits

/-- The banks of a block move fit in a byte each. -/
theorem fits_bank (h : OperandKind.move.Takes limit operands) (hoperand : operand ∈ operands) :
    operand.valuePart.fits 1 = true := by
  have hfits {operand bank : Expr} (hsign : operand.immediateOperand? = some bank)
      (hbank : bank.fits 1 = true) : operand.valuePart.fits 1 = true := by
    rw [Expr.valuePart_of_immediateOperand? hsign]
    exact Expr.fits_valuePart hbank
  cases h with
  | move sourceSign sourceFits destinationSign destinationFits =>
    rcases List.mem_cons.mp hoperand with rfl | hoperand
    · exact hfits sourceSign sourceFits
    · obtain rfl := List.mem_singleton.mp hoperand
      exact hfits destinationSign destinationFits

end OperandKind.Takes

/-- The operands of an instruction may need no more bytes than their fields have, by the estimates
that its opcode was chosen with. -/
theorem Encoding.fits_of_accepts {encoding : Encoding} {widths : RegisterWidths}
    (hwide : encoding.wide = encoding.opcode.isWide widths)
    (h : encoding.opcode.accepts widths encoding.operands = true) :
    ∀ field ∈ encoding.fields, field.operand.fits field.size = true := by
  intro field hfield
  have htakes := Opcode.takes_of_accepts h
  unfold fields at hfield
  cases hmode : encoding.opcode.mode with
  | implied | accumulator | stack | interrupt | relative | relativeLong => simp [hmode] at hfield
  | immediate =>
    rw [Opcode.encodedSize_of_immediate hmode, ← hwide, hmode] at htakes
    simp only [hmode] at hfield
    obtain ⟨operand, hoperand, rfl⟩ := mem_field hfield
    exact htakes.fits_first (by decide) hoperand
  | blockMove =>
    rw [hmode] at htakes
    simp only [hmode, List.mem_append] at hfield
    obtain ⟨operand, hoperand, rfl⟩ | ⟨operand, hoperand, rfl⟩ := hfield.imp mem_field mem_field
    · exact htakes.fits_bank (List.mem_of_getElem? hoperand)
    · exact htakes.fits_bank (List.mem_of_getElem? hoperand)
  | _ =>
    rw [Opcode.encodedSize_of_ne_immediate (by simp [hmode]), hmode] at htakes
    simp only [hmode] at hfield
    obtain ⟨operand, hoperand, rfl⟩ := mem_field hfield
    exact htakes.fits_first (by decide) hoperand

section Refusing

variable {encoding : Encoding} {value : Expr → Except Fault Number}

/-- The value of an operand for a field of `size` bytes, when it is refused for its width. -/
theorem Encoding.exists_of_width {index size offset : Nat} {number : Number}
    (hnumber : encoding.operandValue value index = .ok number) (hsize : 1 ≤ size)
    (hwidth : ¬(1 ≤ number.width ∧ number.width ≤ size)) :
    ∃ field ∈ encoding.field index size offset, ∃ number, value field.operand = .ok number ∧
      ¬(1 ≤ number.width ∧ number.width ≤ field.size) := by
  unfold operandValue at hnumber
  split at hnumber
  case h_1 operand hoperand =>
    refine ⟨⟨operand.valuePart, size, offset⟩, ?_, number, hnumber, hwidth⟩
    simp [field, hoperand]
  case h_2 =>
    -- A missing operand is a zero of one byte.
    cases hnumber
    exact absurd ⟨Nat.le_refl 1, hsize⟩ hwidth

/-- An operand is refused only for a reason of its own. -/
theorem Encoding.operandValue_ne_tooLarge {cause : SizeFault}
    (hvalue : ∀ operand, value operand ≠ .error (.tooLarge cause)) (index : Nat) :
    encoding.operandValue value index ≠ .error (.tooLarge cause) := by
  unfold operandValue
  split
  · exact hvalue _
  · simp

/-- An instruction is too large when the width of an operand is not within its field. -/
theorem Encoding.exists_of_tooLarge {cause : SizeFault}
    (hvalue : ∀ operand, value operand ≠ .error (.tooLarge cause))
    (h : encoding.bytes value = .error (.tooLarge cause)) :
    ∃ field ∈ encoding.fields, ∃ number, value field.operand = .ok number ∧
      ¬(1 ≤ number.width ∧ number.width ≤ field.size) := by
  have hoperand := encoding.operandValue_ne_tooLarge hvalue
  obtain h | ⟨_, _, h⟩ := bind_eq_error.mp h
  case inr => cases h
  cases hholds : encoding.opcode.mode.holdsOperand with
  | true =>
    obtain ⟨refusal, hbytes⟩ := operandBytes_of_holdsOperand hholds
    simp only [hbytes, bind_eq_error, hoperand, false_or] at h
    obtain ⟨number, hnumber, h⟩ := h
    have hlength := encoding.two_le_length hholds
    rw [fields_of_holdsOperand hholds]
    refine exists_of_width hnumber (by omega) fun hwithin => ?_
    rw [if_pos (hasRoom_of_width hwithin.1 hwithin.2)] at h
    cases h
  | false =>
    unfold operandBytes at h
    unfold fields
    cases hmode : encoding.opcode.mode with
    | implied | accumulator | stack | interrupt =>
      simp only [hmode] at h
      cases h
    | relative | relativeLong =>
      simp only [hmode, bind_eq_error, hoperand, false_or] at h
      obtain ⟨number, -, h⟩ := h
      split at h <;> cases h
    | blockMove =>
      simp only [hmode, bind_eq_error, hoperand, false_or] at h
      obtain ⟨source, hsource, destination, hdestination, h⟩ := h
      by_cases hwithin : 1 ≤ source.width ∧ source.width ≤ 1
      · have hbeyond : ¬(1 ≤ destination.width ∧ destination.width ≤ 1) := by
          intro hdestinationWithin
          rw [if_neg (by omega)] at h
          cases h
        obtain ⟨field, hfield, hfound⟩ := exists_of_width hdestination (Nat.le_refl 1) hbeyond
        exact ⟨field, List.mem_append_left _ hfield, hfound⟩
      · obtain ⟨field, hfield, hfound⟩ := exists_of_width hsource (Nat.le_refl 1) hwithin
        exact ⟨field, List.mem_append_right _ hfield, hfound⟩
    | _ =>
      rw [hmode] at hholds
      cases hholds

end Refusing

/-- The value of an operand is never refused for its width by itself. -/
theorem mapError_ofEval_ne_tooLarge {step : Except EvalError Number} {cause : SizeFault} :
    step.mapError Fault.ofEval ≠ .error (.tooLarge cause) := by
  intro h
  obtain ⟨found, -, h⟩ := mapError_eq_error.mp h
  cases found <;> cases h

/-- An instruction whose opcode is chosen by the estimates is too large only when the estimate of
an operand rests on one that overlooks something. -/
theorem Encoding.restsOnOverlooking_of_tooLarge {scope : Scope} {encoding : Encoding}
    {widths : RegisterWidths} {cause : SizeFault} (hscope : scope.OfLabels)
    (hliterals : ∀ operand ∈ encoding.operands, operand.StatesWidths)
    (hselect : Opcode.select encoding.mnemonic widths encoding.operands = .ok encoding.opcode)
    (hwide : encoding.wide = encoding.opcode.isWide widths)
    (h : encoding.bytes (fun e => (e.collapse scope).mapError Fault.ofEval) =
      .error (.tooLarge cause)) :
    ∃ operand ∈ encoding.operands, operand.valuePart.RestsOnOverlooking scope := by
  obtain ⟨field, hfield, number, hnumber, hwidth⟩ :=
    exists_of_tooLarge (fun _ => mapError_ofEval_ne_tooLarge) h
  have hvalue := mapError_eq_ok.mp hnumber
  obtain ⟨operand, hoperand, hpart⟩ := List.mem_map.mp (mem_fields hfield).1
  have hstates : field.operand.StatesWidths := hpart ▸ (hliterals operand hoperand).valuePart
  have hpositive := Expr.one_le_width hscope hstates hvalue
  obtain ⟨guess, hguess, hle⟩ := Expr.fits_iff.mp
    (fits_of_accepts hwide (Opcode.accepts_of_select hselect) field hfield)
  obtain ⟨found, hfound, hwithin⟩ := Expr.width_le_guessWidth_or hscope hstates hvalue
  cases hguess.symm.trans hfound
  refine ⟨operand, hoperand, ?_⟩
  rw [hpart]
  exact hwithin.resolve_left (by omega)

/-- An instruction that the second walk comes to is too large only for such an operand. -/
theorem Reached.restsOnOverlooking_of_tooLarge {environment : Environment} {actions : List Action}
    {final second : Layout} {encoding : Encoding} {location : Location} {labels : List Resolution}
    {cause : SizeFault}
    (h : Reached environment actions final (.instruction encoding) location second)
    (hlabels : ∀ entry ∈ labels, 0 ≤ entry.address ∧ entry.address ≤ 0xFFFFFF)
    (hliterals : ∀ operand ∈ encoding.operands, operand.StatesWidths)
    (hemits : emitOperation labels second (.instruction encoding) = .error (.tooLarge cause)) :
    ∃ operand ∈ encoding.operands, operand.valuePart.RestsOnOverlooking
      (labelScope labels second.current second.address) := by
  obtain ⟨-, hwide, hselect⟩ := h.instruction
  obtain hbytes | ⟨bytes, -, hemits⟩ := bind_eq_error.mp hemits
  case inr => cases hemits
  exact Encoding.restsOnOverlooking_of_tooLarge (labelScope_ofLabels hlabels _ _) hliterals
    hselect hwide hbytes

/-- When the width of an expression is within its estimate. An expression with a value has an
estimate, and states no more bytes unless the estimate of a part that it rests on overlooks
something; what is overlooked always makes an estimate too small. Selected bits are never wider than
their estimates. So an instruction whose opcode is chosen by the estimates, in particular one that
both walks of a program come to, is too large only when an operand of it rests on such a part. -/
theorem estimates_bound_widths (scope : Scope) :
    (scope.OfLabels →
      (∀ (e : Expr) n, e.StatesWidths → e.collapse scope = .ok n →
        ∃ guess, e.guessWidth = some guess ∧ (n.width ≤ guess ∨ e.RestsOnOverlooking scope)) ∧
      (∀ part : Expr, part.StatesWidths → part.Overlooks scope →
        ∃ guess n, part.guessWidth = some guess ∧ part.collapse scope = .ok n ∧
          guess < n.width) ∧
      (∀ (e : Expr) n, e.SelectsBits → e.StatesWidths → e.collapse scope = .ok n →
        ∃ guess, e.guessWidth = some guess ∧ n.width ≤ guess) ∧
      ∀ (encoding : Encoding) widths cause,
        (∀ operand ∈ encoding.operands, operand.StatesWidths) →
        Opcode.select encoding.mnemonic widths encoding.operands = .ok encoding.opcode →
        encoding.wide = encoding.opcode.isWide widths →
        encoding.bytes (fun e => (e.collapse scope).mapError Fault.ofEval) =
          .error (.tooLarge cause) →
        ∃ operand ∈ encoding.operands, operand.valuePart.RestsOnOverlooking scope) ∧
    ∀ search main (run : LayoutRun search main) before encoding size location after emission cause,
      stepEvents run.steps =
        before ++ .operation (.instruction encoding) size location :: after →
      emitEvents run.labels (Emission.initial run.layout) before = .ok emission →
      (∀ entry ∈ run.labels, 0 ≤ entry.address ∧ entry.address ≤ 0xFFFFFF) →
      (∀ operand ∈ encoding.operands, operand.StatesWidths) →
      emitOperation run.labels emission.layout (.instruction encoding) =
        .error (.tooLarge cause) →
      ∃ operand ∈ encoding.operands, operand.valuePart.RestsOnOverlooking
        (labelScope run.labels emission.layout.current emission.layout.address) := by
  constructor
  · intro hscope
    refine ⟨?_, ?_, ?_, ?_⟩
    · intro e n hliterals h
      exact Expr.width_le_guessWidth_or hscope hliterals h
    · intro part hliterals h
      exact h.guessWidth_lt hscope hliterals
    · intro e n hselects hliterals h
      obtain ⟨guess, hguess, hwithin⟩ := hselects.within hscope hliterals h
      exact ⟨guess, hguess, hwithin.width⟩
    · intro encoding widths cause hliterals hselect hwide h
      exact Encoding.restsOnOverlooking_of_tooLarge hscope hliterals hselect hwide h
  · intro search main run before encoding size location after emission cause hevents hbefore
      hlabels hliterals hemits
    obtain ⟨-, hreached⟩ := layoutProgram_reached run.laidOut hevents hbefore
    exact hreached.restsOnOverlooking_of_tooLarge hlabels hliterals hemits

/-- The scope of a program with one label, at `0x8000`, seen from there. -/
def labelAtStart : Scope := labelScope [⟨"C", "l", 0x8000, 0x8000⟩] (some "C") 0x8000

theorem labelAtStart_ofLabels : labelAtStart.OfLabels :=
  labelScope_ofLabels (by simp) _ _

/-- The last hexadecimal digit of the label, by a mask. -/
def maskedLabel : Expr := .binary .bitAnd (.name ⟨"l", false⟩) (.number (.ofInt 15))

/-- The last hexadecimal digit of the label, by a division. -/
def labelRemainder : Expr := .binary .mod (.name ⟨"l", false⟩) (.number (.ofInt 16))

/-- A load of the remainder, for which the direct page is chosen. -/
def loadRemainder : Encoding :=
  ⟨"LDA", [labelRemainder], ⟨"lda", .directPage, 0xA5, .fixed⟩, false, 0x8000⟩

theorem loadRemainder_selected :
    Opcode.select "LDA" ⟨false, false⟩ [labelRemainder] = .ok loadRemainder.opcode := by
  rfl

theorem loadRemainder_tooLarge :
    loadRemainder.bytes (fun e => (e.collapse labelAtStart).mapError Fault.ofEval) =
      .error (.tooLarge (.operand "direct page")) := by
  rfl

/-- The mask is within its estimate. The load of the remainder is too large, because its estimate
overlooks the width of the label. -/
theorem estimates_bound_widths_digit :
    labelAtStart.OfLabels ∧
      (∃ n guess, maskedLabel.collapse labelAtStart = .ok n ∧
        maskedLabel.guessWidth = some guess ∧ n.width ≤ guess) ∧
      loadRemainder.bytes (fun e => (e.collapse labelAtStart).mapError Fault.ofEval) =
        .error (.tooLarge (.operand "direct page")) ∧
      labelRemainder.RestsOnOverlooking labelAtStart := by
  obtain ⟨-, -, hselected, hencoding⟩ :=
    (estimates_bound_widths labelAtStart).1 labelAtStart_ofLabels
  refine ⟨labelAtStart_ofLabels, ?_, loadRemainder_tooLarge, ?_⟩
  · have hmask : maskedLabel.SelectsBits :=
      .bits rfl (.name _) fun _ => .number (by decide) (by decide)
    obtain ⟨guess, hguess, hwidth⟩ := hselected maskedLabel (.ofHex 0 1) hmask (by decide) rfl
    exact ⟨_, guess, rfl, hguess, hwidth⟩
  · obtain ⟨operand, hoperand, hrests⟩ := hencoding loadRemainder ⟨false, false⟩ _
      (by decide) loadRemainder_selected (by decide) loadRemainder_tooLarge
    obtain rfl := List.mem_singleton.mp hoperand
    exact hrests

/-- The remainder states two bytes, one more than its estimate, and a program that loads it is
refused. -/
theorem remainder_beyond_estimate :
    ∃ (scope : Scope) (e : Expr) (n : Number) (encoding : Encoding) (main : SourceFile),
      scope.OfLabels ∧ e.StatesWidths ∧ e.guessWidth = some 1 ∧ e.collapse scope = .ok n ∧
      n.width = 2 ∧ encoding.operands = [e] ∧
      Opcode.select "LDA" ⟨false, false⟩ [e] = .ok encoding.opcode ∧
      encoding.bytes (fun e => (e.collapse scope).mapError Fault.ofEval) =
        .error (.tooLarge (.operand "direct page")) ∧
      main.text = " .segment \"c\",0x8000,9,0\n .c\nl: lda l % 16\n" ∧
      (match assemble ⟨.ofTable [], []⟩ main false with
        | .error ⟨.failed ⟨.tooLarge cause, _⟩, _⟩ => some cause
        | _ => none) = some (.operand "direct page") := by
  refine ⟨labelAtStart, labelRemainder, .ofHex 0 2, loadRemainder, ⟨"digit.s", _⟩,
    labelAtStart_ofLabels, by decide, by decide, rfl, rfl, rfl, loadRemainder_selected,
    loadRemainder_tooLarge, rfl, ?_⟩
  decide +kernel

end Asm65816
