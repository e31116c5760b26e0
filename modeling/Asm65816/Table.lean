/-!
# Tables

Entries found by name and kept in the order in which their names first came up.
-/

namespace Asm65816

/-- Values by name, in the order of their first insertion. -/
abbrev Table (α : Type) := List (String × α)

namespace Table

variable {α : Type}

/-- The value of a name. -/
def get? (table : Table α) (name : String) : Option α :=
  match table with
  | [] => none
  | (key, value) :: rest => if key = name then some value else get? rest name

/-- Whether a name has a value. -/
def has (table : Table α) (name : String) : Bool := (table.get? name).isSome

/-- Gives a name a value. A name that is present keeps its place. -/
def put (table : Table α) (name : String) (value : α) : Table α :=
  match table with
  | [] => [(name, value)]
  | (key, old) :: rest =>
    if key = name then (key, value) :: rest else (key, old) :: put rest name value

/-- Changes the value of a name, if it has one. -/
def alter (table : Table α) (name : String) (change : α → α) : Table α :=
  match table with
  | [] => []
  | (key, value) :: rest =>
    if key = name then (key, change value) :: rest else (key, value) :: alter rest name change

/-- A name finds the value that was put under it last. -/
theorem get?_put (table : Table α) (name other : String) (value : α) :
    (table.put name value).get? other = if name = other then some value else table.get? other := by
  induction table with
  | nil => rfl
  | cons entry rest ih =>
    obtain ⟨key, old⟩ := entry
    by_cases hkey : key = name
    · subst hkey
      simp only [put, if_true, get?]
      split <;> rfl
    · simp only [put, hkey, if_false, get?, ih]
      by_cases hname : name = other
      · simp [← hname, hkey]
      · simp [hname]

/-- Changing the value of a name changes what this name finds and nothing else. -/
theorem get?_alter (table : Table α) (name other : String) (change : α → α) :
    (table.alter name change).get? other =
      if name = other then (table.get? other).map change else table.get? other := by
  induction table with
  | nil => simp [alter, get?]
  | cons entry rest ih =>
    obtain ⟨key, value⟩ := entry
    by_cases hkey : key = name
    · subst hkey
      simp only [alter, if_true, get?]
      split <;> rfl
    · simp only [alter, hkey, if_false, get?, ih]
      by_cases hname : name = other
      · simp [← hname, hkey]
      · simp [hname]

/-- Changing every value changes what every name finds. -/
theorem get?_map {β : Type} (table : Table α) (change : α → β) (name : String) :
    get? (table.map fun (key, value) => (key, change value)) name =
      (table.get? name).map change := by
  induction table with
  | nil => rfl
  | cons entry rest ih =>
    obtain ⟨key, value⟩ := entry
    simp only [List.map_cons, get?, ih]
    split <;> rfl

/-- Changing the value of a name keeps the names. -/
theorem map_fst_alter (table : Table α) (name : String) (change : α → α) :
    (table.alter name change).map Prod.fst = table.map Prod.fst := by
  induction table with
  | nil => rfl
  | cons entry rest ih =>
    unfold alter
    split
    · rfl
    · rw [List.map_cons, ih, List.map_cons]

/-- A name without a value is no name of the table. -/
theorem get?_eq_none_iff {table : Table α} {name : String} :
    table.get? name = none ↔ name ∉ table.map Prod.fst := by
  induction table with
  | nil => simp [get?]
  | cons entry rest ih =>
    obtain ⟨key, value⟩ := entry
    rw [List.map_cons, List.mem_cons, not_or, ← ih]
    by_cases hkey : key = name
    · simp [get?, hkey]
    · simp [get?, hkey, Ne.symm hkey]

/-- A new name comes last. -/
theorem put_of_get? {table : Table α} {name : String} (value : α) (h : table.get? name = none) :
    table.put name value = table ++ [(name, value)] := by
  induction table with
  | nil => rfl
  | cons entry rest ih =>
    obtain ⟨key, old⟩ := entry
    unfold get? at h
    split at h
    case isTrue => cases h
    case isFalse hkey => rw [put, if_neg hkey, ih h, List.cons_append]

/-- A value that is found is in an entry. -/
theorem mem_of_get? {table : Table α} {name : String} {value : α}
    (h : table.get? name = some value) : (name, value) ∈ table := by
  induction table with
  | nil => cases h
  | cons entry rest ih =>
    obtain ⟨key, found⟩ := entry
    unfold get? at h
    split at h
    case isTrue hkey =>
      obtain rfl := Option.some.inj h
      exact hkey ▸ List.mem_cons_self
    case isFalse => exact List.mem_cons_of_mem _ (ih h)

/-- When no name comes twice, every entry is found. -/
theorem get?_of_mem {table : Table α} {name : String} {value : α}
    (hnames : (table.map Prod.fst).Nodup) (h : (name, value) ∈ table) :
    table.get? name = some value := by
  induction table with
  | nil => cases h
  | cons entry rest ih =>
    obtain ⟨key, found⟩ := entry
    rw [List.map_cons, List.nodup_cons] at hnames
    rcases List.mem_cons.mp h with heq | hrest
    · obtain ⟨rfl, rfl⟩ := Prod.mk.inj heq
      exact if_pos rfl
    · have hne : key ≠ name := by
        rintro rfl
        exact hnames.1 (List.mem_map.mpr ⟨(key, value), hrest, rfl⟩)
      rw [get?, if_neg hne]
      exact ih hnames.2 hrest

/-- The table of a list of entries; of two entries with one name the later value counts. -/
def ofList (entries : List (String × α)) : Table α :=
  entries.foldl (fun table (name, value) => table.put name value) []

/-- Entries that have different names are their own table. -/
theorem ofList_of_nodup {entries : List (String × α)} (h : (entries.map Prod.fst).Nodup) :
    ofList entries = entries := by
  have hfold (table : Table α) (hall : ((table ++ entries).map Prod.fst).Nodup) :
      entries.foldl (fun table (name, value) => table.put name value) table = table ++ entries := by
    clear h
    induction entries generalizing table with
    | nil => exact (List.append_nil table).symm
    | cons entry rest ih =>
      obtain ⟨name, value⟩ := entry
      have hnew : table.get? name = none := by
        rw [get?_eq_none_iff]
        rw [List.map_append, List.map_cons, List.nodup_append] at hall
        intro hmem
        exact hall.2.2 name hmem name List.mem_cons_self rfl
      have hsplit : table ++ (name, value) :: rest = table ++ [(name, value)] ++ rest := by
        rw [List.append_assoc, List.singleton_append]
      rw [hsplit] at hall ⊢
      rw [List.foldl_cons]
      dsimp only
      rw [put_of_get? value hnew]
      exact ih _ hall
  exact hfold [] h

/-- Putting a value under a name adds no other entry. -/
theorem mem_of_mem_put {table : Table α} {name : String} {value : α} {entry : String × α}
    (h : entry ∈ table.put name value) : entry ∈ table ∨ entry = (name, value) := by
  induction table with
  | nil => exact .inr (List.mem_singleton.mp h)
  | cons first rest ih =>
    obtain ⟨key, old⟩ := first
    unfold put at h
    split at h
    case isTrue hkey =>
      rcases List.mem_cons.mp h with rfl | hrest
      · exact .inr (by rw [hkey])
      · exact .inl (List.mem_cons_of_mem _ hrest)
    case isFalse =>
      rcases List.mem_cons.mp h with rfl | hrest
      · exact .inl List.mem_cons_self
      · exact (ih hrest).imp (List.mem_cons_of_mem _) id

/-- The table of a list of entries has no others. -/
theorem mem_of_mem_ofList {entries : List (String × α)} {entry : String × α}
    (h : entry ∈ ofList entries) : entry ∈ entries := by
  have hfold (table : Table α)
      (hentry : entry ∈ entries.foldl (fun table (name, value) => table.put name value) table) :
      entry ∈ table ∨ entry ∈ entries := by
    clear h
    induction entries generalizing table with
    | nil => exact .inl hentry
    | cons first rest ih =>
      rcases ih _ hentry with hput | hrest
      · rcases mem_of_mem_put hput with hold | rfl
        · exact .inl hold
        · exact .inr List.mem_cons_self
      · exact .inr (List.mem_cons_of_mem _ hrest)
  exact (hfold [] h).resolve_left List.not_mem_nil

end Table

end Asm65816
