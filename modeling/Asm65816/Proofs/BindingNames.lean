import Asm65816.Proofs.MacroScope
import Asm65816.Proofs.StatedWidth

/-!
# Binding a name and looking it up

A value that needs no labels is given to a name in one of two ways: it is bound to every open
occurrence of the name, or the scope knows the name by it. Evaluation comes to the same outcome,
failures included. Names that are bound one after the other do not get in each other's way, so the
order in which they are bound makes no difference.
-/

namespace Asm65816

/-- A scope that knows every reference to `ident`, short or long, by `n`. -/
def Scope.giving (scope : Scope) (ident : String) (n : Number) : Scope :=
  fun name => if name.ident = ident then some n else scope name

namespace Scope

variable {ident other : String} {n m : Number}

theorem lookup_giving_self (scope : Scope) {name : Name} (h : name.ident = ident) :
    (scope.giving ident n).lookup name = .ok n := by
  rw [lookup, giving, if_pos h]

theorem lookup_giving_of_ne (scope : Scope) {name : Name} (h : name.ident ≠ ident) :
    (scope.giving ident n).lookup name = scope.lookup name := by
  rw [lookup, giving, if_neg h, lookup]

/-- Different names are given their numbers in any order. -/
theorem giving_comm (scope : Scope) (h : ident ≠ other) :
    (scope.giving ident n).giving other m = (scope.giving other m).giving ident n := by
  funext name
  by_cases hident : name.ident = ident
  · have hother : name.ident ≠ other := hident ▸ h
    simp only [giving, if_pos hident, if_neg hother]
  · simp only [giving, if_neg hident]

end Scope

namespace Expr

/-- Binding goes through when a choice is made for every name. -/
theorem exists_bindNames {ε : Type} {choose : Name → Except ε (Option Expr)}
    (h : ∀ name, ∃ chosen, choose name = .ok chosen) (e : Expr) :
    ∃ bound, e.bindNames choose = .ok bound := by
  induction e using Expr.inductionOn with
  | number value => exact ⟨_, rfl⟩
  | name found =>
    obtain ⟨chosen, hchosen⟩ := h found
    rw [bindNames, hchosen, ok_bind]
    cases chosen with
    | none => exact ⟨_, rfl⟩
    | some value => exact ⟨_, rfl⟩
  | bound _ _ ih | unary _ _ ih | immediate _ ih =>
    obtain ⟨inner, hinner⟩ := ih
    exact ⟨_, bind_eq_ok.mpr ⟨inner, hinner, rfl⟩⟩
  | binary op left right ihl ihr =>
    obtain ⟨first, hfirst⟩ := ihl
    obtain ⟨second, hsecond⟩ := ihr
    exact ⟨_, bind_eq_ok.mpr ⟨first, hfirst, bind_eq_ok.mpr ⟨second, hsecond, rfl⟩⟩⟩
  | group items long ih =>
    obtain ⟨inner, hinner⟩ : ∃ inner, bindAll choose items = .ok inner := by
      induction items with
      | nil => exact ⟨[], rfl⟩
      | cons item rest ihrest =>
        obtain ⟨first, hfirst⟩ := ih item List.mem_cons_self
        obtain ⟨others, hothers⟩ :=
          ihrest fun other hother => ih other (List.mem_cons_of_mem _ hother)
        exact ⟨_, bind_eq_ok.mpr ⟨first, hfirst, bind_eq_ok.mpr ⟨others, hothers, rfl⟩⟩⟩
    exact ⟨_, bind_eq_ok.mpr ⟨inner, hinner, rfl⟩⟩
  | text content petscii => exact ⟨_, rfl⟩

/-- What is open after binding was open before and not bound, or is open in a value that was
bound. -/
theorem mem_openNames_of_bindNames {ε : Type} {choose : Name → Except ε (Option Expr)}
    {e bound : Expr} {name : Name} (h : e.bindNames choose = .ok bound) :
    name ∈ bound.openNames ↔
      (name ∈ e.openNames ∧ choose name = .ok none) ∨
        ∃ found value, found ∈ e.openNames ∧ choose found = .ok (some value) ∧
          name ∈ value.openNames := by
  induction e using Expr.inductionOn generalizing bound with
  | number | text =>
    cases h
    simp [openNames]
  | name found =>
    obtain ⟨chosen, hchosen, h⟩ := bind_eq_ok.mp h
    cases chosen with
    | none =>
      cases h
      simp only [openNames, List.mem_singleton]
      constructor
      · rintro rfl
        exact .inl ⟨rfl, hchosen⟩
      · rintro (⟨rfl, -⟩ | ⟨other, value, rfl, hvalue, -⟩)
        · rfl
        · cases hchosen.symm.trans hvalue
    | some value =>
      cases h
      simp only [openNames, List.mem_singleton]
      constructor
      · intro hname
        exact .inr ⟨found, value, rfl, hchosen, hname⟩
      · rintro (⟨rfl, hnone⟩ | ⟨other, value', rfl, hvalue, hname⟩)
        · cases hchosen.symm.trans hnone
        · cases hchosen.symm.trans hvalue
          exact hname
  | bound _ _ ih | unary _ _ ih | immediate _ ih =>
    obtain ⟨inner, hinner, h⟩ := bind_eq_ok.mp h
    cases h
    simp only [openNames]
    exact ih hinner
  | binary op left right ihl ihr =>
    obtain ⟨first, hfirst, h⟩ := bind_eq_ok.mp h
    obtain ⟨second, hsecond, h⟩ := bind_eq_ok.mp h
    cases h
    simp only [openNames, List.mem_append, ihl hfirst, ihr hsecond]
    grind
  | group items long ih =>
    obtain ⟨inner, hinner, h⟩ := bind_eq_ok.mp h
    cases h
    simp only [openNames]
    clear h
    induction items generalizing inner with
    | nil =>
      cases hinner
      simp [openNamesAll]
    | cons item rest ihrest =>
      obtain ⟨first, hfirst, hinner⟩ := bind_eq_ok.mp hinner
      obtain ⟨others, hothers, hinner⟩ := bind_eq_ok.mp hinner
      cases hinner
      have hhead := ih item List.mem_cons_self hfirst
      have htail := ihrest (fun other hother => ih other (List.mem_cons_of_mem _ hother)) _ hothers
      simp only [openNamesAll, List.mem_append, hhead, htail]
      grind

/-- Binds `value` to every open name with the identifier, those in bound values included. -/
def bindIdent (e : Expr) (ident : String) (value : Expr) : Except EvalError Expr :=
  e.bindNames fun name => do
    if name.ident = ident then return some (← rebind name none value) else return none

/-- Binds several names one after the other. -/
def bindIdents (e : Expr) (bindings : List (String × Expr)) : Except EvalError Expr :=
  bindings.foldlM (fun e (ident, value) => e.bindIdent ident value) e

variable {ident : String} {value e e' : Expr} {n : Number}

/-- A name without a value takes any value. -/
theorem exists_bindIdent (ident : String) (value e : Expr) :
    ∃ bound, e.bindIdent ident value = .ok bound := by
  refine exists_bindNames (fun name => ?_) e
  by_cases h : name.ident = ident
  · exact ⟨some value, if_pos h⟩
  · exact ⟨none, if_neg h⟩

/-- Which names a binding chooses. -/
theorem bindIdent_choice {name : Name} {chosen : Option Expr}
    (h : (do if name.ident = ident then return some (← rebind name none value) else return none) =
      (.ok chosen : Except EvalError (Option Expr))) :
    chosen = if name.ident = ident then some value else none := by
  split at h
  case isTrue hident =>
    cases h
    rw [if_pos hident]
  case isFalse hident =>
    cases h
    rw [if_neg hident]

/-- Binding a value that needs no labels is knowing the name by its number. -/
theorem collapse_bindIdent {bound : Expr} (hvalue : value.closedValue = .ok n)
    (h : e.bindIdent ident value = .ok bound) (scope : Scope) :
    bound.collapse scope = e.collapse (scope.giving ident n) := by
  rw [collapse_eq_evaluate, collapse_eq_evaluate]
  refine evaluate_bindNames h (fun name chosen hchosen => ?_) (fun name hnone => ?_)
  · have hchoice := bindIdent_choice hchosen
    split at hchoice
    case isTrue hident =>
      cases hchoice
      rw [← collapse_eq_evaluate, collapse_of_closedValue hvalue,
        Scope.lookup_giving_self scope hident]
    case isFalse => cases hchoice
  · have hchoice := bindIdent_choice hnone
    split at hchoice
    case isTrue => cases hchoice
    case isFalse hident => exact (Scope.lookup_giving_of_ne scope hident).symm

/-- A binding leaves all other names open and opens none. -/
theorem mem_openNames_bindIdent {bound : Expr} (hvalue : value.closedValue = .ok n)
    (h : e.bindIdent ident value = .ok bound) (name : Name) :
    name ∈ bound.openNames ↔ name ∈ e.openNames ∧ name.ident ≠ ident := by
  have hclosed := openNames_eq_nil_of_closedValue hvalue
  rw [mem_openNames_of_bindNames h]
  constructor
  · rintro (⟨hname, hnone⟩ | ⟨found, chosen, -, hchosen, hname⟩)
    · refine ⟨hname, fun hident => ?_⟩
      cases (bindIdent_choice hnone).trans (if_pos hident)
    · have hchoice := bindIdent_choice hchosen
      split at hchoice
      · cases hchoice
        rw [hclosed] at hname
        cases hname
      · cases hchoice
  · rintro ⟨hname, hident⟩
    exact .inl ⟨hname, if_neg hident⟩

/-! ## Several names -/

/-- Expressions that have the same outcome in every scope. -/
def SameOutcomes (e e' : Expr) : Prop := ∀ scope, e.collapse scope = e'.collapse scope

/-- Bindings keep outcomes the same. -/
theorem SameOutcomes.bindIdents {bindings : List (String × Expr)}
    (hclosed : ∀ binding ∈ bindings, ∃ n, binding.2.closedValue = .ok n)
    (h : e.SameOutcomes e') :
    ∃ bound bound', e.bindIdents bindings = .ok bound ∧ e'.bindIdents bindings = .ok bound' ∧
      bound.SameOutcomes bound' := by
  induction bindings generalizing e e' with
  | nil => exact ⟨e, e', rfl, rfl, h⟩
  | cons binding rest ih =>
    obtain ⟨ident, value⟩ := binding
    obtain ⟨n, hvalue⟩ := hclosed _ List.mem_cons_self
    obtain ⟨first, hfirst⟩ := exists_bindIdent ident value e
    obtain ⟨first', hfirst'⟩ := exists_bindIdent ident value e'
    have hsame : first.SameOutcomes first' := fun scope => by
      rw [collapse_bindIdent hvalue hfirst, collapse_bindIdent hvalue hfirst', h]
    obtain ⟨bound, bound', hbound, hbound', houtcomes⟩ :=
      ih (fun other hother => hclosed other (List.mem_cons_of_mem _ hother)) hsame
    exact ⟨bound, bound', bind_eq_ok.mpr ⟨first, hfirst, hbound⟩,
      bind_eq_ok.mpr ⟨first', hfirst', hbound'⟩, houtcomes⟩

/-- Two different names are bound in either order. -/
theorem sameOutcomes_swap {other : String} {value' first second first' second' : Expr} {m : Number}
    (hne : ident ≠ other) (hvalue : value.closedValue = .ok n)
    (hvalue' : value'.closedValue = .ok m)
    (hfirst : e.bindIdent ident value = .ok first)
    (hsecond : first.bindIdent other value' = .ok second)
    (hfirst' : e.bindIdent other value' = .ok first')
    (hsecond' : first'.bindIdent ident value = .ok second') : second.SameOutcomes second' := by
  intro scope
  rw [collapse_bindIdent hvalue' hsecond, collapse_bindIdent hvalue hfirst,
    collapse_bindIdent hvalue hsecond', collapse_bindIdent hvalue' hfirst',
    Scope.giving_comm scope hne.symm]

/-- Different names are bound in any order. -/
theorem exists_bindIdents_perm {bindings bindings' : List (String × Expr)}
    (hperm : bindings.Perm bindings') (hdistinct : (bindings.map Prod.fst).Nodup)
    (hclosed : ∀ binding ∈ bindings, ∃ n, binding.2.closedValue = .ok n) (e : Expr) :
    ∃ bound bound', e.bindIdents bindings = .ok bound ∧ e.bindIdents bindings' = .ok bound' ∧
      bound.SameOutcomes bound' := by
  induction hperm generalizing e with
  | nil => exact ⟨e, e, rfl, rfl, fun _ => rfl⟩
  | cons binding _ ih =>
    obtain ⟨first, hfirst⟩ := exists_bindIdent binding.1 binding.2 e
    obtain ⟨bound, bound', hbound, hbound', houtcomes⟩ := ih (List.nodup_cons.mp hdistinct).2
      (fun other hother => hclosed other (List.mem_cons_of_mem _ hother)) first
    exact ⟨bound, bound', bind_eq_ok.mpr ⟨first, hfirst, hbound⟩,
      bind_eq_ok.mpr ⟨first, hfirst, hbound'⟩, houtcomes⟩
  | swap one two rest =>
    -- Only the two names in front change places; what is bound behind them keeps outcomes the same.
    obtain ⟨n, htwo⟩ := hclosed two List.mem_cons_self
    obtain ⟨m, hone⟩ := hclosed one (List.mem_cons_of_mem _ List.mem_cons_self)
    have hne : two.1 ≠ one.1 := by
      simp only [List.map_cons, List.nodup_cons, List.mem_cons, not_or] at hdistinct
      exact hdistinct.1.1
    obtain ⟨first, hfirst⟩ := exists_bindIdent two.1 two.2 e
    obtain ⟨second, hsecond⟩ := exists_bindIdent one.1 one.2 first
    obtain ⟨first', hfirst'⟩ := exists_bindIdent one.1 one.2 e
    obtain ⟨second', hsecond'⟩ := exists_bindIdent two.1 two.2 first'
    obtain ⟨bound, bound', hbound, hbound', houtcomes⟩ :=
      (sameOutcomes_swap hne htwo hone hfirst hsecond hfirst' hsecond').bindIdents
        fun other hother =>
          hclosed other (List.mem_cons_of_mem _ (List.mem_cons_of_mem _ hother))
    exact ⟨bound, bound', bind_eq_ok.mpr ⟨first, hfirst, bind_eq_ok.mpr ⟨second, hsecond, hbound⟩⟩,
      bind_eq_ok.mpr ⟨first', hfirst', bind_eq_ok.mpr ⟨second', hsecond', hbound'⟩⟩, houtcomes⟩
  | @trans _ between _ hfirst _ ih ih' =>
    obtain ⟨bound, middle, hbound, hmiddle, houtcomes⟩ := ih hdistinct hclosed e
    have hmiddles : ∀ binding ∈ between, ∃ n, binding.2.closedValue = .ok n :=
      fun binding hbinding => hclosed binding (hfirst.mem_iff.mpr hbinding)
    obtain ⟨middle', bound', hmiddle', hbound', houtcomes'⟩ :=
      ih' ((hfirst.map Prod.fst).nodup hdistinct) hmiddles e
    cases hmiddle.symm.trans hmiddle'
    exact ⟨bound, bound', hbound, hbound', fun scope => (houtcomes scope).trans (houtcomes' scope)⟩

end Expr

/-- Binding a name and resolving it agree. A value with the number `n` is bound to every open name
with an identifier and to nothing else; what comes of it has the value, radix, width or failure in
every scope that the expression itself has in the scope that knows the identifier by `n`. Hence
different names come to the same outcome in whatever order they are bound. -/
theorem binding_agrees_with_scope (e : Expr) :
    (∀ ident value n, value.closedValue = .ok n →
      ∃ bound, e.bindIdent ident value = .ok bound ∧
        (∀ name, name ∈ bound.openNames ↔ name ∈ e.openNames ∧ name.ident ≠ ident) ∧
        ∀ scope, bound.collapse scope = e.collapse (scope.giving ident n)) ∧
    ∀ bindings bindings' : List (String × Expr), (bindings.map Prod.fst).Nodup →
      (∀ binding ∈ bindings, ∃ n, binding.2.closedValue = .ok n) → bindings.Perm bindings' →
        ∃ bound bound', e.bindIdents bindings = .ok bound ∧ e.bindIdents bindings' = .ok bound' ∧
          ∀ scope, bound.collapse scope = bound'.collapse scope := by
  constructor
  · intro ident value n hvalue
    obtain ⟨bound, hbound⟩ := Expr.exists_bindIdent ident value e
    exact ⟨bound, hbound, Expr.mem_openNames_bindIdent hvalue hbound,
      Expr.collapse_bindIdent hvalue hbound⟩
  · intro bindings bindings' hdistinct hclosed hperm
    exact Expr.exists_bindIdents_perm hperm hdistinct hclosed e

/-- In `p * &x - z`, where `p` is bound to `x + y`, the name `x` is open twice, once in the bound
value. Bound to 3, it leaves `y` and `z` open; with `y` at 4 and `z` at 1, in either order, the
value is 20. -/
theorem binding_agrees_with_scope_nested :
    ∃ (e x xBound bound bound' : Expr) (scope : Scope),
      e.openNames = [⟨"x", false⟩, ⟨"y", false⟩, ⟨"x", true⟩, ⟨"z", false⟩] ∧
      x.closedValue = .ok (.ofInt 3) ∧ e.bindIdent "x" x = .ok xBound ∧
      xBound.openNames = [⟨"y", false⟩, ⟨"z", false⟩] ∧
      xBound.collapse scope = e.collapse (scope.giving "x" (.ofInt 3)) ∧
      e.bindIdents [("x", x), ("y", .number (.ofInt 4))] = .ok bound ∧
      e.bindIdents [("y", .number (.ofInt 4)), ("x", x)] = .ok bound' ∧
      bound.collapse scope = bound'.collapse scope ∧ bound.collapse scope = .ok (.ofInt 20) := by
  let e : Expr := .binary .sub (.binary .mul
    (.bound ⟨"p", false⟩ (.binary .add (.name ⟨"x", false⟩) (.name ⟨"y", false⟩)))
    (.name ⟨"x", true⟩)) (.name ⟨"z", false⟩)
  let x : Expr := .bound ⟨"q", false⟩ (.number (.ofInt 3))
  let bindings : List (String × Expr) := [("x", x), ("y", .number (.ofInt 4))]
  let scope : Scope := fun name => if name.ident = "z" then some (.ofInt 1) else none
  have hclosed : ∀ binding ∈ bindings, ∃ n, binding.2.closedValue = .ok n := by
    intro binding hbinding
    rcases List.mem_pair.mp hbinding with rfl | rfl
    · exact ⟨_, rfl⟩
    · exact ⟨_, rfl⟩
  obtain ⟨hone, hseveral⟩ := binding_agrees_with_scope e
  obtain ⟨xBound, hxBound, -, hagrees⟩ := hone "x" x (.ofInt 3) rfl
  obtain ⟨bound, bound', hbound, hbound', hsame⟩ :=
    hseveral bindings _ (by decide) hclosed (.swap _ _ [])
  cases hxBound
  cases hbound
  exact ⟨e, x, _, _, bound', scope, rfl, rfl, rfl, rfl, hagrees scope, rfl, hbound', hsame scope,
    rfl⟩

end Asm65816
