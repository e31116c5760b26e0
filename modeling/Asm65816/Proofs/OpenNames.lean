import Asm65816.Instruction
import Asm65816.Expr.Binding
import Asm65816.Proofs.Outcome

/-!
# The names that an operand leaves open

Evaluating an expression asks the scope for the names that carry no value, those inside bound
values included, and for no others. An expression has an unresolved name exactly when the scope
does not know one of them, and it needs no scope at all when none is open. Binding changes nothing
but these names. Two expressions are compared form by form.
-/

namespace Asm65816

/-! ## Operators without a result -/

/-- A value that is no word is an overflow. -/
theorem checkedWord_eq_error {value : Int} {cause : EvalError}
    (h : checkedWord value = .error cause) : cause = .overflow := by
  unfold checkedWord at h
  split at h
  · cases h
  · cases h
    rfl

/-- Why a prefix operator has no result: a complement traps, any other value is an overflow. -/
theorem UnaryOp.apply_eq_error {op : UnaryOp} {n : Number} {cause : EvalError}
    (h : op.apply n = .error cause) :
    cause = .overflow ∨ op = .complement ∧ n.complement = .error .trap ∧ cause = .trap := by
  cases op with
  | negate =>
    rcases bind_eq_error.mp h with hword | ⟨value, -, hresult⟩
    · exact .inl (checkedWord_eq_error hword)
    · cases hresult
  | complement =>
    rcases bind_eq_error.mp h with hcomplement | ⟨value, -, hresult⟩
    · have htrap := hcomplement
      simp only [Number.complement] at htrap
      repeat' split at htrap
      all_goals cases htrap
      exact .inr ⟨rfl, hcomplement, rfl⟩
    · cases hresult
  | _ => cases h

/-- Why a binary operator has no result. -/
theorem BinaryOp.apply_eq_error {op : BinaryOp} {a b : Number} {cause : EvalError}
    (h : op.apply a b = .error cause) :
    cause = .overflow ∨ cause = .divisionByZero ∨ cause = .negativeExponent := by
  rcases bind_eq_error.mp h with hvalue | ⟨value, -, hresult⟩
  · cases op with
    | add | sub | mul => exact .inl (checkedWord_eq_error hvalue)
    | div | mod | pow | shiftLeft | shiftRight =>
      simp only [BinaryOp.applyValue, Number.div, Number.rem, Number.pow, Number.shiftLeft,
        Number.shiftRight] at hvalue
      repeat' split at hvalue
      all_goals first
        | exact .inl (checkedWord_eq_error hvalue)
        | cases hvalue
      all_goals simp
    | _ => cases hvalue
  · cases hresult

namespace Expr

/-- Induction on expressions, in which a group is handled through its items. -/
@[elab_as_elim]
theorem inductionOn {motive : Expr → Prop} (e : Expr)
    (number : ∀ value, motive (.number value)) (name : ∀ name, motive (.name name))
    (bound : ∀ name value, motive value → motive (.bound name value))
    (unary : ∀ op operand, motive operand → motive (.unary op operand))
    (binary : ∀ op left right, motive left → motive right → motive (.binary op left right))
    (group : ∀ items long, (∀ item ∈ items, motive item) → motive (.group items long))
    (text : ∀ content petscii, motive (.text content petscii))
    (immediate : ∀ operand, motive operand → motive (.immediate operand)) : motive e :=
  @Expr.rec motive (fun items => ∀ item ∈ items, motive item) number name bound unary
    binary group text immediate (by simp) (fun head tail hhead htail => by
      simpa using ⟨hhead, htail⟩) e

/-! ## Comparison -/

mutual

/-- Whether two expressions are the same. -/
def same : Expr → Expr → Bool
  | .number n, .number other => n == other
  | .name n, .name other => n == other
  | .bound n value, .bound other value' => n == other && value.same value'
  | .unary op e, .unary op' e' => op == op' && e.same e'
  | .binary op l r, .binary op' l' r' => op == op' && l.same l' && r.same r'
  | .group items long, .group items' long' => sameAll items items' && long == long'
  | .text content petscii, .text content' petscii' => content == content' && petscii == petscii'
  | .immediate e, .immediate e' => e.same e'
  | _, _ => false

/-- Whether two lists of expressions are the same. -/
def sameAll : List Expr → List Expr → Bool
  | [], [] => true
  | e :: rest, e' :: rest' => e.same e' && sameAll rest rest'
  | _, _ => false

end

/-- Expressions that are found to be the same are equal. -/
theorem same_iff {e other : Expr} : e.same other = true ↔ e = other := by
  induction e using Expr.inductionOn generalizing other with
  | number | name | text => cases other <;> simp [same]
  | bound found value ih | unary op operand ih | immediate operand ih =>
    cases other <;> simp [same, ih]
  | binary op left right ihl ihr => cases other <;> simp [same, ihl, ihr, and_assoc]
  | group items long ih =>
    cases other with
    | group items' long' =>
      have hitems : sameAll items items' = true ↔ items = items' := by
        induction items generalizing items' with
        | nil => cases items' <;> simp [sameAll]
        | cons first rest ihrest =>
          cases items' with
          | nil => simp [sameAll]
          | cons first' rest' =>
            simp [sameAll, ih first List.mem_cons_self,
              ihrest (fun item hitem => ih item (List.mem_cons_of_mem _ hitem))]
      simp [same, hitems]
    | _ => simp [same]

instance : DecidableEq Expr := fun _ _ => decidable_of_iff _ same_iff

/-! ## Evaluation as a chain -/

variable {scope : Scope}

/-- A prefix operator is applied to the value of its operand. -/
theorem collapse_unary (op : UnaryOp) (e : Expr) :
    (unary op e).collapse scope = e.collapse scope >>= op.apply := by
  rw [collapse]
  cases e.collapse scope with
  | error cause => rfl
  | ok n => rfl

/-- A binary operator is applied to the values of its operands, the left one first. -/
theorem collapse_binary (op : BinaryOp) (l r : Expr) :
    (binary op l r).collapse scope =
      l.collapse scope >>= fun a => r.collapse scope >>= fun b => op.apply a b := by
  rw [collapse]
  cases l.collapse scope with
  | error cause => rfl
  | ok a =>
    rw [ok_bind]
    cases r.collapse scope with
    | error cause => rfl
    | ok b => rfl

/-- A group with a value holds one item, whose value it has. -/
theorem collapse_group_eq_ok {items : List Expr} {long : Bool} {n : Number} :
    (group items long).collapse scope = .ok n ↔
      ∃ single, items = [single] ∧ single.collapse scope = .ok n := by
  rw [collapse]
  unfold collapseItems
  split
  case h_1 single => simp
  case h_2 hmany =>
    simp only [reduceCtorEq, false_iff, not_exists, not_and]
    intro single hsingle
    exact absurd hsingle (hmany single)

/-! ## Open names -/

mutual

/-- The names that have no value yet, from left to right, those in bound values included. -/
def openNames : Expr → List Name
  | .number _ => []
  | .name n => [n]
  | .bound _ value => value.openNames
  | .unary _ e => e.openNames
  | .binary _ l r => l.openNames ++ r.openNames
  | .group items _ => openNamesAll items
  | .text _ _ => []
  | .immediate e => e.openNames

/-- The open names of the items of a group. -/
def openNamesAll : List Expr → List Name
  | [] => []
  | e :: rest => e.openNames ++ openNamesAll rest

end

/-- A name is open in a group when it is open in one of its items. -/
theorem mem_openNamesAll {name : Name} {items : List Expr} :
    name ∈ openNamesAll items ↔ ∃ item ∈ items, name ∈ item.openNames := by
  induction items with
  | nil => simp [openNamesAll]
  | cons e rest ih => simp [openNamesAll, ih]

/-- The mentions of a group are those of its items. -/
theorem mem_mentionsAll {mention : Mention} {items : List Expr} :
    mention ∈ mentionsAll items ↔ ∃ item ∈ items, mention ∈ item.mentions := by
  induction items with
  | nil => simp [mentionsAll]
  | cons e rest ih => simp [mentionsAll, ih]

/-- An open name is mentioned without a value. -/
theorem mention_of_mem_openNames {name : Name} {e : Expr} (h : name ∈ e.openNames) :
    ⟨name.ident, false⟩ ∈ e.mentions := by
  induction e using Expr.inductionOn with
  | number value => simp [openNames] at h
  | name found =>
    obtain rfl : name = found := by simpa [openNames] using h
    simp [mentions]
  | bound found value ih =>
    rw [mentions]
    exact List.mem_cons_of_mem _ (ih h)
  | unary op operand ih => exact ih h
  | binary op left right ihl ihr =>
    rw [openNames, List.mem_append] at h
    rw [mentions, List.mem_append]
    exact h.imp ihl ihr
  | group items long ih =>
    rw [openNames, mem_openNamesAll] at h
    rw [mentions, mem_mentionsAll]
    obtain ⟨item, hitem, hname⟩ := h
    exact ⟨item, hitem, ih item hitem hname⟩
  | text content petscii => simp [openNames] at h
  | immediate operand ih => exact ih h

/-- The identifier of an open name is open. -/
theorem ident_mem_openIdents {name : Name} {e : Expr} (h : name ∈ e.openNames) :
    name.ident ∈ e.openIdents := by
  have hmention := mention_of_mem_openNames h
  rw [openIdents, List.mem_filter, List.any_eq_true, idents, List.mem_eraseDups]
  refine ⟨List.mem_map.mpr ⟨_, hmention, rfl⟩, ⟨name.ident, false⟩, hmention, ?_⟩
  simp

/-- The part of an operand that carries its value has no further open names. -/
theorem openNames_valuePart {name : Name} {e : Expr} (h : name ∈ e.valuePart.openNames) :
    name ∈ e.openNames := by
  induction e using Expr.inductionOn with
  | immediate operand ih => exact ih h
  | group items long ih =>
    cases items with
    | nil => exact h
    | cons first rest =>
      rw [openNames, mem_openNamesAll]
      exact ⟨first, List.mem_cons_self, h⟩
  | bound found value ih =>
    rw [valuePart] at h
    split at h
    · exact h
    · exact ih h
  | _ => exact h

/-- Scopes that agree on the open names of an expression give it one value. -/
theorem collapse_congr {other : Scope} {e : Expr}
    (h : ∀ name ∈ e.openNames, scope name = other name) : e.collapse scope = e.collapse other := by
  induction e using Expr.inductionOn with
  | number value => rfl
  | name found => rw [collapse, collapse, h found (by simp [openNames])]
  | bound found value ih => exact ih h
  | unary op operand ih => rw [collapse_unary, collapse_unary, ih h]
  | binary op left right ihl ihr =>
    simp only [openNames, List.mem_append] at h
    rw [collapse_binary, collapse_binary, ihl fun name hname => h name (.inl hname),
      ihr fun name hname => h name (.inr hname)]
  | group items long ih =>
    rw [collapse, collapse]
    unfold collapseItems
    split
    case h_1 single =>
      refine ih single List.mem_cons_self fun name hname => h name ?_
      rw [openNames, mem_openNamesAll]
      exact ⟨single, List.mem_cons_self, hname⟩
    case h_2 => rfl
  | text content petscii => rfl
  | immediate operand ih => exact ih h

/-! ## Unresolved names -/

/-- A name that cannot be resolved is an open one that the scope does not know. -/
theorem exists_open_of_unresolved {e : Expr} {ident : String}
    (h : e.collapse scope = .error (.unresolvedName ident)) :
    ∃ name ∈ e.openNames, name.ident = ident ∧ scope name = none := by
  induction e using Expr.inductionOn with
  | number value => simp [collapse] at h
  | name found =>
    rw [collapse] at h
    cases hscope : scope found with
    | some value => simp [hscope] at h
    | none =>
      simp only [hscope, Except.error.injEq, EvalError.unresolvedName.injEq] at h
      exact ⟨found, by simp [openNames], h, hscope⟩
  | bound found value ih => exact ih h
  | unary op operand ih =>
    rw [collapse_unary, bind_eq_error] at h
    rcases h with h | ⟨n, -, h⟩
    · exact ih h
    · rcases UnaryOp.apply_eq_error h with hnever | ⟨-, -, hnever⟩ <;> cases hnever
  | binary op left right ihl ihr =>
    simp only [collapse_binary, bind_eq_error] at h
    simp only [openNames, List.mem_append]
    rcases h with h | ⟨a, -, h | ⟨b, -, h⟩⟩
    · obtain ⟨name, hname, hfound⟩ := ihl h
      exact ⟨name, .inl hname, hfound⟩
    · obtain ⟨name, hname, hfound⟩ := ihr h
      exact ⟨name, .inr hname, hfound⟩
    · rcases BinaryOp.apply_eq_error h with hnever | hnever | hnever <;> cases hnever
  | group items long ih =>
    rw [collapse] at h
    unfold collapseItems at h
    split at h
    case h_1 single =>
      obtain ⟨name, hname, hfound⟩ := ih single (by simp) h
      refine ⟨name, ?_, hfound⟩
      rw [openNames, mem_openNamesAll]
      exact ⟨single, by simp, hname⟩
    case h_2 => cases h
  | text content petscii => simp [collapse] at h
  | immediate operand ih => exact ih h

/-- A scope that gives an expression a value knows its open names. -/
theorem isSome_of_collapse {e : Expr} {n : Number} (h : e.collapse scope = .ok n) :
    ∀ name ∈ e.openNames, (scope name).isSome = true := by
  induction e using Expr.inductionOn generalizing n with
  | number value | text content petscii => simp [openNames]
  | name found =>
    intro name hname
    obtain rfl : name = found := by simpa [openNames] using hname
    rw [collapse] at h
    cases hscope : scope name with
    | some value => rfl
    | none => simp [hscope] at h
  | bound found value ih | immediate value ih => exact ih h
  | unary op operand ih =>
    rw [collapse_unary, bind_eq_ok] at h
    obtain ⟨value, hvalue, -⟩ := h
    exact ih hvalue
  | binary op left right ihl ihr =>
    simp only [collapse_binary, bind_eq_ok] at h
    obtain ⟨a, ha, b, hb, -⟩ := h
    intro name hname
    rcases List.mem_append.mp hname with hleft | hright
    · exact ihl ha name hleft
    · exact ihr hb name hright
  | group items long ih =>
    obtain ⟨single, rfl, hsingle⟩ := collapse_group_eq_ok.mp h
    intro name hname
    rw [openNames, mem_openNamesAll] at hname
    obtain ⟨item, hitem, hname⟩ := hname
    obtain rfl := List.mem_singleton.mp hitem
    exact ih item hitem hsingle name hname

/-- An expression that has a value without any labels leaves no name open. -/
theorem openNames_eq_nil_of_closedValue {e : Expr} {n : Number} (h : e.closedValue = .ok n) :
    e.openNames = [] := by
  refine List.eq_nil_iff_forall_not_mem.mpr fun name hname => ?_
  have hknown : (Scope.empty name).isSome = true := isSome_of_collapse h name hname
  cases hknown

/-! ## Binding -/

/-- Binding leaves an expression as it is when nothing is chosen for its names. -/
theorem bindNames_of_unchosen {ε : Type} {choose : Name → Except ε (Option Expr)} {e : Expr}
    (h : ∀ name ∈ e.openNames, choose name = .ok none) : e.bindNames choose = .ok e := by
  induction e using Expr.inductionOn with
  | number value | text content petscii => rfl
  | name name =>
    have hnone := h name (by simp [openNames])
    simp only [bindNames, hnone, ok_bind]
    rfl
  | bound name value ih => simp only [bindNames, ih h, ok_bind, pure_eq_ok]
  | unary op operand ih | immediate operand ih =>
    simp only [bindNames, ih h, ok_bind, pure_eq_ok]
  | binary op left right ihl ihr =>
    simp only [openNames, List.mem_append] at h
    simp only [bindNames, ihl fun name hname => h name (.inl hname), ok_bind,
      ihr fun name hname => h name (.inr hname), pure_eq_ok]
  | group items long ih =>
    have hitems : bindAll choose items = .ok items := by
      rw [openNames] at h
      clear long
      induction items with
      | nil => rfl
      | cons first rest ihrest =>
        simp only [openNamesAll, List.mem_append] at h
        simp only [bindAll, ih first List.mem_cons_self fun name hname => h name (.inl hname),
          ok_bind, ihrest (fun item hitem => ih item (List.mem_cons_of_mem _ hitem))
            fun name hname => h name (.inr hname), pure_eq_ok]
    simp only [bindNames, hitems, ok_bind, pure_eq_ok]

end Expr

end Asm65816
