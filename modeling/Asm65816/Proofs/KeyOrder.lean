import Mathlib.Data.List.Pairwise

/-!
# Sorting by a key

Sorting by a key puts the keys in ascending order and keeps the order of the items of one key. Both
together leave no choice: there is one such list of the given items.
-/

namespace Asm65816

variable {α : Type} (key : α → Int)

/-- The comparison of keys is transitive. -/
theorem keyLe_trans (first second third : α)
    (hfirst : decide (key first ≤ key second) = true)
    (hsecond : decide (key second ≤ key third) = true) :
    decide (key first ≤ key third) = true :=
  decide_eq_true (Int.le_trans (of_decide_eq_true hfirst) (of_decide_eq_true hsecond))

/-- Any two keys can be compared. -/
theorem keyLe_total (first second : α) :
    (decide (key first ≤ key second) || decide (key second ≤ key first)) = true := by
  simpa using Int.le_total (key first) (key second)

/-- Sorting by a key puts the keys in ascending order. -/
theorem pairwise_mergeSort_on (items : List α) :
    (items.mergeSort fun first second => decide (key first ≤ key second)).Pairwise
      fun first second => key first ≤ key second :=
  (List.pairwise_mergeSort (keyLe_trans key) (keyLe_total key) items).imp of_decide_eq_true

/-- Sorting by a key keeps the order of the items of one key. -/
theorem filter_mergeSort_on (items : List α) (value : Int) :
    ((items.mergeSort fun first second => decide (key first ≤ key second)).filter
        fun item => key item = value) = items.filter fun item => key item = value := by
  have hequal : (items.filter fun item => key item = value).Pairwise
      fun first second => decide (key first ≤ key second) = true := by
    refine List.pairwise_of_forall_mem_list fun first hfirst second hsecond => ?_
    have hfirst := of_decide_eq_true (List.mem_filter.mp hfirst).2
    have hsecond := of_decide_eq_true (List.mem_filter.mp hsecond).2
    exact decide_eq_true (Int.le_of_eq (hfirst.trans hsecond.symm))
  have hkept := (List.sublist_mergeSort (keyLe_trans key) (keyLe_total key) hequal
    List.filter_sublist).filter fun item => decide (key item = value)
  rw [List.filter_filter] at hkept
  simp only [Bool.and_self] at hkept
  have hperm := List.mergeSort_perm items fun first second => decide (key first ≤ key second)
  have hlength := (hperm.filter fun item => decide (key item = value)).length_eq
  exact (hkept.eq_of_length hlength.symm).symm

/-- Lists in ascending order that agree on every key are the same. -/
theorem eq_of_filter_eq {first second : List α}
    (hfirst : first.Pairwise fun a b => key a ≤ key b)
    (hsecond : second.Pairwise fun a b => key a ≤ key b)
    (hsame : ∀ value, (first.filter fun item => key item = value) =
      second.filter fun item => key item = value) : first = second := by
  have hmem (item : α) : item ∈ first ↔ item ∈ second := by
    have h := congrArg (item ∈ ·) (hsame (key item))
    simpa using h
  induction first generalizing second with
  | nil => exact (List.eq_nil_iff_forall_not_mem.mpr fun item => by simp [← hmem item]).symm
  | cons a rest ih =>
    cases second with
    | nil => exact absurd ((hmem a).mp List.mem_cons_self) List.not_mem_nil
    | cons b others =>
      obtain ⟨hbelow, hrest⟩ := List.pairwise_cons.mp hfirst
      obtain ⟨hbelow', hothers⟩ := List.pairwise_cons.mp hsecond
      -- Both heads have the least key, so they are the first items of that key.
      have hkey : key a = key b := by
        have hba : key b ≤ key a := by
          rcases List.mem_cons.mp ((hmem a).mp List.mem_cons_self) with rfl | h
          · exact Int.le_refl _
          · exact hbelow' a h
        have hab : key a ≤ key b := by
          rcases List.mem_cons.mp ((hmem b).mpr List.mem_cons_self) with rfl | h
          · exact Int.le_refl _
          · exact hbelow b h
        exact Int.le_antisymm hab hba
      have hheads := hsame (key a)
      simp only [List.filter_cons, hkey, decide_true, if_true, List.cons.injEq] at hheads
      obtain ⟨rfl, -⟩ := hheads
      have htails (value : Int) : (rest.filter fun item => key item = value) =
          others.filter fun item => key item = value := by
        have h := hsame value
        simp only [List.filter_cons] at h
        split at h
        · exact (List.cons.inj h).2
        · exact h
      refine congrArg (a :: ·) (ih hrest hothers htails fun item => ?_)
      have h := congrArg (item ∈ ·) (htails (key item))
      simpa using h

end Asm65816
