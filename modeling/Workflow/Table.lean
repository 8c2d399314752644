/-!
# Tables

A table gives values to names. It is the list of its entries in increasing order of their names,
each name once; `put` and `erase` keep the order, and what `get?` reads after them does not depend
on it.
-/

namespace Workflow

abbrev Table (α : Type) := List (String × α)

namespace Table

variable {α : Type}

def get? (name : String) : Table α → Option α
  | [] => none
  | (key, value) :: rest => if name = key then some value else get? name rest

def has (name : String) (t : Table α) : Bool :=
  (t.get? name).isSome

/-- The table with `name` bound to `value`, in place of any earlier value. -/
def put (name : String) (value : α) : Table α → Table α
  | [] => [(name, value)]
  | (key, old) :: rest =>
    if name = key then (name, value) :: rest
    else if name < key then (name, value) :: (key, old) :: rest
    else (key, old) :: put name value rest

def erase (name : String) (t : Table α) : Table α :=
  t.filter fun entry => !decide (name = entry.1)

/-- All entries of `later` put into the table, one after the other. -/
def merge (t : Table α) (later : List (String × α)) : Table α :=
  later.foldl (fun t entry => t.put entry.1 entry.2) t

/-- The table with the given entries; of two with the same name the later one counts. -/
def ofEntries (entries : List (String × α)) : Table α :=
  merge [] entries

def names (t : Table α) : List String :=
  t.map Prod.fst

@[simp] theorem get?_nil (name : String) : get? name ([] : Table α) = none := rfl

theorem get?_cons (name key : String) (value : α) (rest : Table α) :
    get? name ((key, value) :: rest) = if name = key then some value else get? name rest := rfl

@[simp] theorem get?_put_self (name : String) (value : α) (t : Table α) :
    (t.put name value).get? name = some value := by
  induction t with
  | nil => simp [put, get?]
  | cons entry rest ih =>
    obtain ⟨key, old⟩ := entry
    by_cases h : name = key
    · simp [put, get?, h]
    · by_cases hlt : name < key <;> simp [put, get?, h, hlt, ih]

theorem get?_put_of_ne {name other : String} (value : α) (t : Table α) (h : other ≠ name) :
    (t.put name value).get? other = t.get? other := by
  induction t with
  | nil => simp [put, get?, h]
  | cons entry rest ih =>
    obtain ⟨key, old⟩ := entry
    by_cases hk : name = key
    · subst hk; simp [put, get?, h]
    · by_cases hlt : name < key <;> simp [put, get?, h, hk, hlt, ih]

theorem get?_put (name other : String) (value : α) (t : Table α) :
    (t.put name value).get? other = if other = name then some value else t.get? other := by
  by_cases h : other = name
  · subst h; simp
  · simp [h, get?_put_of_ne value t h]

@[simp] theorem get?_erase_self (name : String) (t : Table α) :
    (t.erase name).get? name = none := by
  induction t with
  | nil => rfl
  | cons entry rest ih =>
    obtain ⟨key, old⟩ := entry
    by_cases h : name = key <;> simp_all [erase, get?]

theorem get?_erase_of_ne {name other : String} (t : Table α) (h : other ≠ name) :
    (t.erase name).get? other = t.get? other := by
  induction t with
  | nil => rfl
  | cons entry rest ih =>
    obtain ⟨key, old⟩ := entry
    by_cases hk : name = key
    · subst hk; simp_all [erase, get?]
    · by_cases ho : other = key <;> simp_all [erase, get?]

theorem has_iff_mem_names (name : String) (t : Table α) : t.has name = true ↔ name ∈ t.names := by
  induction t with
  | nil => simp [has, names]
  | cons entry rest ih =>
    obtain ⟨key, value⟩ := entry
    by_cases h : name = key
    · simp [has, get?, names, h]
    · simpa [has, get?, names, h] using ih

theorem mem_names_put {name other : String} {value : α} {t : Table α} :
    other ∈ (t.put name value).names ↔ other = name ∨ other ∈ t.names := by
  rw [← has_iff_mem_names, ← has_iff_mem_names, has, has, get?_put]
  by_cases h : other = name <;> simp [h]

/-- The entries stand in increasing order of their names, so that each name occurs once. -/
def Ordered (t : Table α) : Prop :=
  t.names.Pairwise (· < ·)

theorem ordered_nil : Ordered ([] : Table α) :=
  .nil

theorem Ordered.put {t : Table α} (h : t.Ordered) (name : String) (value : α) :
    (t.put name value).Ordered := by
  induction t with
  | nil => exact List.pairwise_singleton _ name
  | cons entry rest ih =>
    obtain ⟨key, old⟩ := entry
    obtain ⟨hkey, hrest⟩ := List.pairwise_cons.1 h
    by_cases heq : name = key
    · subst heq
      simpa only [Ordered, Table.put, names, if_pos, List.map_cons] using h
    by_cases hlt : name < key
    · simp only [Ordered, Table.put, names, if_neg heq, if_pos hlt, List.map_cons]
      refine List.pairwise_cons.2 ⟨fun other hm => ?_, h⟩
      rcases List.mem_cons.1 hm with rfl | hm
      · exact hlt
      · exact String.lt_trans hlt (hkey other hm)
    · have hgt : key < name :=
        ((Std.lt_trichotomy name key).resolve_left hlt).resolve_left heq
      simp only [Ordered, Table.put, names, if_neg heq, if_neg hlt, List.map_cons]
      refine List.pairwise_cons.2 ⟨fun other hm => ?_, ih hrest⟩
      rcases mem_names_put.1 hm with rfl | hm
      · exact hgt
      · exact hkey other hm

theorem Ordered.erase {t : Table α} (h : t.Ordered) (name : String) : (t.erase name).Ordered :=
  h.sublist (List.filter_sublist.map Prod.fst)

theorem Ordered.merge {t : Table α} (h : t.Ordered) (later : List (String × α)) :
    (t.merge later).Ordered := by
  induction later generalizing t with
  | nil => exact h
  | cons entry rest ih => exact ih (h.put entry.1 entry.2)

theorem ordered_ofEntries (entries : List (String × α)) : Ordered (ofEntries entries) :=
  ordered_nil.merge entries

end Table

end Workflow
