set_option autoImplicit false

namespace ActiveMarkup

/-- An association list whose keys are kept in the order of their first insertion. -/
abbrev Table (α : Type) := List (String × α)

namespace Table

variable {α : Type}

def keys (t : Table α) : List String :=
  t.map Prod.fst

def find? (t : Table α) (key : String) : Option α :=
  match t with
  | [] => none
  | (k, v) :: rest => if k = key then some v else find? rest key

def has (t : Table α) (key : String) : Bool :=
  (t.find? key).isSome

def insert (t : Table α) (key : String) (value : α) : Table α :=
  match t with
  | [] => [(key, value)]
  | (k, v) :: rest => if k = key then (k, value) :: rest else (k, v) :: insert rest key value

def insertNew (t : Table α) (key : String) (value : α) : Table α :=
  if t.has key then t else insert t key value

def erase (t : Table α) (key : String) : Table α :=
  t.filter fun entry => entry.1 ≠ key

def Distinct (t : Table α) : Prop :=
  t.keys.Nodup

theorem find?_insert_same (t : Table α) (key : String) (value : α) :
    (t.insert key value).find? key = some value := by
  induction t with
  | nil => simp [insert, find?]
  | cons entry rest ih =>
    obtain ⟨k, v⟩ := entry
    by_cases h : k = key
    · simp [insert, find?, h]
    · simp [insert, find?, h, ih]

theorem find?_insert_other (t : Table α) {key other : String} (value : α) (hne : other ≠ key) :
    (t.insert key value).find? other = t.find? other := by
  induction t with
  | nil => simp [insert, find?, hne.symm]
  | cons entry rest ih =>
    obtain ⟨k, v⟩ := entry
    by_cases h : k = key
    · subst h; simp [insert, find?, hne.symm]
    · simp only [insert, h, if_false, find?, ih]

theorem find?_eq_none_iff (t : Table α) (key : String) : t.find? key = none ↔ key ∉ t.keys := by
  induction t with
  | nil => simp [find?, keys]
  | cons entry rest ih =>
    obtain ⟨k, v⟩ := entry
    by_cases h : k = key
    · simp [find?, keys, h]
    · simp only [find?, h, if_false, ih, keys, List.map_cons, List.mem_cons, not_or]
      exact ⟨fun hr => ⟨fun he => h he.symm, hr⟩, fun hr => hr.2⟩

theorem keys_insert (t : Table α) (key : String) (value : α) :
    (t.insert key value).keys = if key ∈ t.keys then t.keys else t.keys ++ [key] := by
  induction t with
  | nil => simp [insert, keys]
  | cons entry rest ih =>
    obtain ⟨k, v⟩ := entry
    by_cases h : k = key
    · simp [insert, keys, h]
    · have h' : ¬ key = k := fun he => h he.symm
      simp only [keys] at ih
      simp only [insert, h, if_false, keys, List.map_cons, List.mem_cons, h', false_or, ih]
      by_cases hm : key ∈ rest.map Prod.fst <;> simp [hm]

theorem Distinct.insert {t : Table α} (h : t.Distinct) (key : String) (value : α) :
    (Table.insert t key value).Distinct := by
  unfold Distinct at *
  rw [keys_insert]
  split
  · exact h
  · rename_i hk
    refine List.nodup_append.mpr ⟨h, by simp, ?_⟩
    intro a ha b hb hab
    simp only [List.mem_singleton] at hb
    subst hb
    subst hab
    exact hk ha

theorem Distinct.erase {t : Table α} (h : t.Distinct) (key : String) :
    (Table.erase t key).Distinct := by
  unfold Distinct keys Table.erase at *
  exact h.sublist ((List.filter_sublist).map Prod.fst)

end Table

end ActiveMarkup
