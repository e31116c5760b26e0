import Mathlib.Data.List.Pairwise
import Mathlib.Order.Bounds.Basic
import Asm65816.Proofs.NameTables

/-!
# Which declaration a direction means

The addresses of a local label are kept in ascending order. Looking backward from a reference takes
the last of them that is not beyond it, and looking forward the first that is, but the reference
itself when it is declared there more than once; at the ends the first and the last one do for both.
Without a direction there is an answer only where both directions give it.
-/

namespace Asm65816

/-! ## Where the scan ends -/

section Scanning

variable {reference : Int} {direction : Direction} {below above : List Int}

/-- Declarations before the reference are passed, and the last of them is kept in mind. -/
theorem resolveAfter_append {previous : Option Int}
    (hbelow : ∀ address ∈ below, address < reference) (current : Int) (above : List Int) :
    resolveAfter previous reference direction (below ++ current :: above) =
      resolveAfter (below.getLast?.or previous) reference direction (current :: above) := by
  induction below generalizing previous with
  | nil => rfl
  | cons first below ih =>
    obtain ⟨hfirst, hothers⟩ := List.forall_mem_cons.mp hbelow
    have hstep : resolveAfter previous reference direction (first :: below ++ current :: above) =
        resolveAfter (some first) reference direction (below ++ current :: above) := by
      cases below with
      | nil => exact if_pos hfirst
      | cons next more => exact if_pos hfirst
    rw [hstep, ih hothers, List.getLast?_cons]
    cases below.getLast? with
    | none => rfl
    | some last => rfl

/-- Behind all declarations the last one is meant. -/
theorem resolveAddress_behind {last : Int} (hbelow : ∀ address ∈ below, address < reference)
    (hlast : last < reference) :
    resolveAddress (below ++ [last]) reference direction = some last := by
  rw [resolveAddress, resolveAfter_append hbelow]
  cases below.getLast? with
  | none => rfl
  | some before => exact if_neg (Int.lt_asymm hlast)

/-- Between two declarations the direction decides; before all of them the first one is meant. -/
theorem resolveAddress_between {current : Int} (hbelow : ∀ address ∈ below, address < reference)
    (hcurrent : reference < current) :
    resolveAddress (below ++ current :: above) reference direction =
      match below.getLast?, direction with
      | none, _ => some current
      | some before, .backward => some before
      | some _, .forward => some current
      | some _, .nearest => none := by
  have hpast := Int.lt_asymm hcurrent
  rw [resolveAddress, resolveAfter_append hbelow]
  cases below.getLast? with
  | none => cases above <;> simp [resolveAfter, hcurrent, hpast]
  | some before => cases above <;> cases direction <;> simp [resolveAfter, hcurrent, hpast]

/-- On a declaration that another one follows the direction decides; the last one is meant. -/
theorem resolveAddress_on (hbelow : ∀ address ∈ below, address < reference) :
    resolveAddress (below ++ reference :: above) reference direction =
      match above, direction with
      | [], _ => some reference
      | _ :: _, .backward => some reference
      | next :: _, .forward => some next
      | _ :: _, .nearest => none := by
  rw [resolveAddress, resolveAfter_append hbelow]
  cases above with
  | nil => cases below.getLast? <;> simp [resolveAfter]
  | cons next more => cases direction <;> simp [resolveAfter]

end Scanning

/-- A reference stands behind all declarations, in front of one, or on one, with none but earlier
ones before that. -/
theorem exists_around {addresses : List Int} (hsome : addresses ≠ []) (reference : Int) :
    ∃ below : List Int, (∀ address ∈ below, address < reference) ∧
      ((∃ last, last < reference ∧ addresses = below ++ [last]) ∨
        (∃ current above, reference < current ∧ addresses = below ++ current :: above) ∨
        ∃ above, addresses = below ++ reference :: above) := by
  induction addresses with
  | nil => exact absurd rfl hsome
  | cons first rest ih =>
    rcases Int.lt_trichotomy first reference with hbefore | rfl | hbehind
    · rcases rest.eq_nil_or_concat' with rfl | ⟨others, last, rfl⟩
      · exact ⟨[], by simp, .inl ⟨first, hbefore, rfl⟩⟩
      · obtain ⟨below, hbelow, haround⟩ := ih (by simp)
        refine ⟨first :: below, List.forall_mem_cons.mpr ⟨hbefore, hbelow⟩, ?_⟩
        simpa only [List.cons_append, List.cons.injEq, true_and] using haround
    · exact ⟨[], by simp, .inr (.inr ⟨rest, rfl⟩)⟩
    · exact ⟨[], by simp, .inr (.inl ⟨first, rest, hbehind, rfl⟩)⟩

/-! ## What each direction means -/

/-- A reference in front of the first of some addresses is none of them. -/
theorem count_eq_zero_of_lt {first reference : Int} {rest : List Int}
    (hordered : (first :: rest).Pairwise (· ≤ ·)) (h : reference < first) :
    (first :: rest).count reference = 0 :=
  List.count_eq_zero.mpr fun hmem => (hordered.rel_head hmem).not_gt h

section Directions

variable {addresses : List Int} {reference : Int}

/-- What is meant without a direction is meant in every direction. -/
theorem resolveAddress_of_nearest {found : Int} (hsome : addresses ≠ [])
    (h : resolveAddress addresses reference .nearest = some found) (direction : Direction) :
    resolveAddress addresses reference direction = some found := by
  obtain ⟨below, hbelow, haround⟩ := exists_around hsome reference
  rcases haround with ⟨last, hlast, rfl⟩ | ⟨current, above, hcurrent, rfl⟩ | ⟨above, rfl⟩
  · rw [resolveAddress_behind hbelow hlast] at h ⊢
    exact h
  · rw [resolveAddress_between hbelow hcurrent] at h ⊢
    cases hbefore : below.getLast? with
    | none => simpa [hbefore] using h
    | some before => simp [hbefore] at h
  · rw [resolveAddress_on hbelow] at h ⊢
    cases above with
    | nil => exact h
    | cons next more => cases h

variable (hsome : addresses ≠ []) (hordered : addresses.Pairwise (· ≤ ·)) (reference)

include hordered

/-- Looking backward takes the greatest address up to the reference, or the first address. -/
theorem resolveAddress_backward :
    ∃ found, resolveAddress addresses reference .backward = some found ∧
      (IsGreatest {address | address ∈ addresses ∧ address ≤ reference} found ∨
        (∀ address ∈ addresses, reference < address) ∧ found = addresses.head hsome) := by
  obtain ⟨below, hbelow, haround⟩ := exists_around hsome reference
  rcases haround with ⟨last, hlast, rfl⟩ | ⟨current, above, hcurrent, rfl⟩ | ⟨above, rfl⟩
  · refine ⟨last, resolveAddress_behind hbelow hlast, .inl ⟨⟨by simp, hlast.le⟩, ?_⟩⟩
    intro address haddress
    simpa using hordered.rel_getLast haddress.1
  · obtain ⟨hbefore, hbehind, -⟩ := List.pairwise_append.mp hordered
    have hbeyond : ∀ address ∈ current :: above, reference < address :=
      fun address haddress => hcurrent.trans_le (hbehind.rel_head haddress)
    rcases below.eq_nil_or_concat' with rfl | ⟨others, before, rfl⟩
    · exact ⟨current, resolveAddress_between hbelow hcurrent, .inr ⟨hbeyond, rfl⟩⟩
    · refine ⟨before, ?_, .inl ⟨⟨by simp, (hbelow before (by simp)).le⟩, ?_⟩⟩
      · rw [resolveAddress_between hbelow hcurrent, List.getLast?_concat]
      · rintro address ⟨haddress, hle⟩
        rcases List.mem_append.mp haddress with h | h
        · simpa using hbefore.rel_getLast h
        · exact absurd (hbeyond address h) (not_lt.mpr hle)
  · refine ⟨reference, ?_, .inl ⟨⟨by simp, le_rfl⟩, fun address haddress => haddress.2⟩⟩
    rw [resolveAddress_on hbelow]
    cases above <;> rfl

/-- Looking forward takes the reference itself when it is declared more than once, and else the
least address beyond it, or the last address. -/
theorem resolveAddress_forward :
    ∃ found, resolveAddress addresses reference .forward = some found ∧
      if 2 ≤ addresses.count reference then found = reference
      else IsLeast {address | address ∈ addresses ∧ reference < address} found ∨
        (∀ address ∈ addresses, address ≤ reference) ∧ found = addresses.getLast hsome := by
  obtain ⟨below, hbelow, haround⟩ := exists_around hsome reference
  have hnone : below.count reference = 0 :=
    List.count_eq_zero.mpr fun h => lt_irrefl _ (hbelow _ h)
  -- An address behind the reference is none of those before it.
  have hbehind {address : Int} {above : List Int} (h : address ∈ below ++ above)
      (hlt : reference < address) : address ∈ above :=
    (List.mem_append.mp h).resolve_left fun h => lt_asymm hlt (hbelow _ h)
  rcases haround with ⟨last, hlast, rfl⟩ | ⟨current, above, hcurrent, rfl⟩ | ⟨above, rfl⟩
  · refine ⟨last, resolveAddress_behind hbelow hlast, ?_⟩
    rw [if_neg (by simp [List.count_append, hnone, hlast.ne])]
    refine .inr ⟨fun address haddress => ?_, by simp⟩
    exact (hordered.rel_getLast haddress).trans (by simpa using hlast.le)
  · have habove := (List.pairwise_append.mp hordered).2.1
    have hzero := count_eq_zero_of_lt habove hcurrent
    refine ⟨current, ?_, ?_⟩
    · rw [resolveAddress_between hbelow hcurrent]
      cases below.getLast? <;> rfl
    · rw [if_neg (by rw [List.count_append, hnone, hzero]; decide)]
      exact .inl ⟨⟨by simp, hcurrent⟩, fun address h => habove.rel_head (hbehind h.1 h.2)⟩
  · have habove := (List.pairwise_append.mp hordered).2.1
    cases above with
    | nil =>
      refine ⟨reference, resolveAddress_on hbelow, ?_⟩
      rw [if_neg (by simp [List.count_append, hnone])]
      refine .inr ⟨fun address haddress => ?_, by simp⟩
      simpa using hordered.rel_getLast haddress
    | cons next more =>
      refine ⟨next, resolveAddress_on hbelow, ?_⟩
      obtain ⟨hfirst, hrest⟩ := List.pairwise_cons.mp habove
      rcases (hfirst next List.mem_cons_self).eq_or_lt with rfl | hnext
      · rw [if_pos (by simp only [List.count_append, List.count_cons_self]; omega)]
      · have hzero := count_eq_zero_of_lt hrest hnext
        rw [if_neg (by rw [List.count_append, hnone, List.count_cons_self, hzero]; decide)]
        refine .inl ⟨⟨by simp, hnext⟩, fun address h => ?_⟩
        rcases List.mem_cons.mp (hbehind h.1 h.2) with rfl | hmem
        · exact absurd h.2 (lt_irrefl _)
        · exact hrest.rel_head hmem

/-- Without a direction there is no answer from the first address on up to the last one, and on one
that is declared more than once. -/
theorem resolveAddress_nearest_eq_none_iff :
    resolveAddress addresses reference .nearest = none ↔
      (addresses.head hsome ≤ reference ∧ reference < addresses.getLast hsome) ∨
        2 ≤ addresses.count reference := by
  obtain ⟨below, hbelow, haround⟩ := exists_around hsome reference
  have hnone : below.count reference = 0 :=
    List.count_eq_zero.mpr fun h => lt_irrefl _ (hbelow _ h)
  rcases haround with ⟨last, hlast, rfl⟩ | ⟨current, above, hcurrent, rfl⟩ | ⟨above, rfl⟩
  · simp [resolveAddress_behind hbelow hlast, List.count_append, hnone, hlast.ne, hlast.not_gt]
  · have hzero := count_eq_zero_of_lt (List.pairwise_append.mp hordered).2.1 hcurrent
    rw [resolveAddress_between hbelow hcurrent]
    rcases below.eq_nil_or_concat' with rfl | ⟨others, before, rfl⟩
    · simp [hzero, hcurrent.not_ge]
    · have hfirst := (hordered.rel_head (a := before) (by simp)).trans (hbelow before (by simp)).le
      have hlast := hcurrent.trans_le (hordered.rel_getLast (a := current) (by simp))
      simp only [List.getLast?_concat, true_iff]
      exact .inl ⟨hfirst, hlast⟩
  · rw [resolveAddress_on hbelow]
    cases above with
    | nil => simp [List.count_append, hnone]
    | cons next more =>
      have hfirst := hordered.rel_head (a := reference) (by simp)
      have hlast := hordered.rel_getLast (a := next) (by simp)
      obtain ⟨hnext, -⟩ := List.pairwise_cons.mp (List.pairwise_append.mp hordered).2.1
      simp only [true_iff]
      rcases (hnext next List.mem_cons_self).eq_or_lt with rfl | hlt
      · exact .inr (by simp only [List.count_append, List.count_cons_self]; omega)
      · exact .inl ⟨hfirst, hlt.trans_le hlast⟩

variable {reference} in
/-- An answer without a direction is the first address or the last one. -/
theorem resolveAddress_nearest {found : Int}
    (h : resolveAddress addresses reference .nearest = some found) :
    (reference < addresses.head hsome ∧ found = addresses.head hsome) ∨
      (addresses.getLast hsome ≤ reference ∧ found = addresses.getLast hsome) := by
  have hclear := (resolveAddress_nearest_eq_none_iff reference hsome hordered).not.mp (by simp [h])
  obtain ⟨hbetween, honce⟩ := not_or.mp hclear
  rcases lt_or_ge reference (addresses.head hsome) with hfront | hstarted
  · obtain ⟨back, hback, hvalue⟩ := resolveAddress_backward reference hsome hordered
    obtain rfl := Option.some.inj (hback.symm.trans (resolveAddress_of_nearest hsome h .backward))
    refine .inl ⟨hfront, ?_⟩
    rcases hvalue with hgreatest | hfirst
    · exact absurd (hfront.trans_le (hordered.rel_head hgreatest.1.1)) hgreatest.1.2.not_gt
    · exact hfirst.2
  · have hend : addresses.getLast hsome ≤ reference := not_lt.mp fun hlt => hbetween ⟨hstarted, hlt⟩
    obtain ⟨ahead, hahead, hvalue⟩ := resolveAddress_forward reference hsome hordered
    obtain rfl := Option.some.inj (hahead.symm.trans (resolveAddress_of_nearest hsome h .forward))
    refine .inr ⟨hend, ?_⟩
    rw [if_neg honce] at hvalue
    rcases hvalue with hleast | hlast
    · exact absurd (hleast.1.2.trans_le (hordered.rel_getLast hleast.1.1)) hend.not_gt
    · exact hlast.2

end Directions

/-- Which declaration each direction means. Declaring a local label again keeps its addresses in
ascending order. For every reference, looking backward takes the greatest address up to it, or the
first address if there is none; looking forward takes the reference itself when it is declared more
than once, and else the least address beyond it, or the last address if there is none. Without a
direction there is no answer exactly from the first address on up to the last one, and on an address
that is declared more than once; otherwise the answer is the end that the reference lies beyond, and
both directions give it as well. -/
theorem resolveAddress_directions {addresses : List Int} (hsome : addresses ≠ [])
    (hordered : addresses.Pairwise (· ≤ ·)) :
    (∀ address, insertAddress address addresses ≠ [] ∧
      (insertAddress address addresses).Pairwise (· ≤ ·)) ∧
    ∀ reference,
      (∃ found, resolveAddress addresses reference .backward = some found ∧
        (IsGreatest {address | address ∈ addresses ∧ address ≤ reference} found ∨
          (∀ address ∈ addresses, reference < address) ∧ found = addresses.head hsome)) ∧
      (∃ found, resolveAddress addresses reference .forward = some found ∧
        if 2 ≤ addresses.count reference then found = reference
        else IsLeast {address | address ∈ addresses ∧ reference < address} found ∨
          (∀ address ∈ addresses, address ≤ reference) ∧ found = addresses.getLast hsome) ∧
      (resolveAddress addresses reference .nearest = none ↔
        (addresses.head hsome ≤ reference ∧ reference < addresses.getLast hsome) ∨
          2 ≤ addresses.count reference) ∧
      ∀ found, resolveAddress addresses reference .nearest = some found →
        ((reference < addresses.head hsome ∧ found = addresses.head hsome) ∨
          (addresses.getLast hsome ≤ reference ∧ found = addresses.getLast hsome)) ∧
        ∀ direction, resolveAddress addresses reference direction = some found := by
  constructor
  · intro address
    have hmem : address ∈ insertAddress address addresses :=
      (insertAddress_perm address addresses).mem_iff.mpr List.mem_cons_self
    refine ⟨List.ne_nil_of_mem hmem, ?_⟩
    rw [insertAddress_eq]
    exact hordered.orderedInsert _ _
  · intro reference
    refine ⟨resolveAddress_backward reference hsome hordered,
      resolveAddress_forward reference hsome hordered,
      resolveAddress_nearest_eq_none_iff reference hsome hordered, fun found h => ⟨?_, ?_⟩⟩
    · exact resolveAddress_nearest hsome hordered h
    · exact resolveAddress_of_nearest hsome h

/-- A label that is declared twice at one of three addresses, looked at from there. -/
theorem resolveAddress_directions_repeated :
    [0xC005, 0xC007, 0xC007, 0xC009] ≠ ([] : List Int) ∧
      ([0xC005, 0xC007, 0xC007, 0xC009] : List Int).Pairwise (· ≤ ·) ∧
      resolveAddress [0xC005, 0xC007, 0xC007, 0xC009] 0xC007 .forward = some 0xC007 ∧
      resolveAddress [0xC005, 0xC007, 0xC007, 0xC009] 0xC007 .nearest = none := by
  have hsome : [0xC005, 0xC007, 0xC007, 0xC009] ≠ ([] : List Int) := by decide
  have hordered : ([0xC005, 0xC007, 0xC007, 0xC009] : List Int).Pairwise (· ≤ ·) := by decide
  obtain ⟨-, ⟨found, hfound, hvalue⟩, hnone, -⟩ :=
    (resolveAddress_directions hsome hordered).2 0xC007
  rw [if_pos (by decide)] at hvalue
  exact ⟨hsome, hordered, hvalue ▸ hfound, hnone.mpr (.inr (by decide))⟩

end Asm65816
