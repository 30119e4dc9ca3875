/-!
# Tables

Finite maps from keys to values as lists of entries. Where an order is to be seen, `OrderedMap` is
used; the order of a table carries no meaning.

- `Table.get?_set`, `Table.get?_erase`: setting or removing a key changes the value of this key
  alone.
- `Table.get?_eq_none_iff`, `Table.mem_values_of_get?`: the keys without a value, and the values
  of keys.
- `Table.keys_set_of_new`: the entries stand in the order in which their keys came.
-/

namespace ModelGraph

universe u v w

/-- Entries of keys with values. -/
structure Table (κ : Type u) (α : Type v) where
  entries : List (κ × α)
  deriving DecidableEq, Repr

namespace Table

variable {κ : Type u} {α : Type v}

/-- The table without entries. -/
def empty : Table κ α := ⟨[]⟩

instance : Inhabited (Table κ α) := ⟨empty⟩

/-- The number of entries. -/
def size (t : Table κ α) : Nat := t.entries.length

/-- There is no entry. -/
def isEmpty (t : Table κ α) : Bool := t.entries.isEmpty

/-- The keys, in the order of the entries. -/
def keys (t : Table κ α) : List κ := t.entries.map Prod.fst

/-- The values. -/
def values (t : Table κ α) : List α := t.entries.map Prod.snd

/-- Every value changed. -/
def mapValues {β : Type w} (t : Table κ α) (f : α → β) : Table κ β :=
  ⟨t.entries.map fun (k, v) => (k, f v)⟩

variable [DecidableEq κ]

/-- The value of a key in a list of entries. -/
def find? (key : κ) : List (κ × α) → Option α
  | [] => none
  | (k, v) :: rest => if k = key then some v else find? key rest

/-- Entries with a key set: in place, or at the end. -/
def setIn (key : κ) (value : α) : List (κ × α) → List (κ × α)
  | [] => [(key, value)]
  | (k, v) :: rest => if k = key then (key, value) :: rest else (k, v) :: setIn key value rest

/-- The value of a key. -/
def get? (t : Table κ α) (key : κ) : Option α := find? key t.entries

/-- A key set to a value. -/
def set (t : Table κ α) (key : κ) (value : α) : Table κ α := ⟨setIn key value t.entries⟩

/-- The table without a key. -/
def erase (t : Table κ α) (key : κ) : Table κ α := ⟨t.entries.filter (·.1 ≠ key)⟩

/-! ## Laws of lookups -/

/-- What is found among entries after a key was set among them. -/
theorem find?_setIn (key k : κ) (value : α) (l : List (κ × α)) :
    find? k (setIn key value l) = if k = key then some value else find? k l := by
  induction l with
  | nil => simp [setIn, find?, eq_comm]
  | cons e rest ih =>
    obtain ⟨x, v⟩ := e
    by_cases hx : x = key <;> by_cases hk : k = key <;> by_cases hxk : x = k <;>
      simp_all [setIn, find?, eq_comm]

/-- Setting a key changes the value of this key alone. -/
theorem get?_set (t : Table κ α) (key k : κ) (value : α) :
    (t.set key value).get? k = if k = key then some value else t.get? k :=
  find?_setIn key k value t.entries

/-- No key has a value in the table without entries. -/
@[simp]
theorem get?_empty (k : κ) : (empty : Table κ α).get? k = none := rfl

/-- Removing a key leaves the values of all others. -/
theorem get?_erase (t : Table κ α) (key k : κ) :
    (t.erase key).get? k = if k = key then none else t.get? k := by
  obtain ⟨entries⟩ := t
  simp only [erase, get?]
  induction entries with
  | nil => simp [find?]
  | cons e rest ih =>
    obtain ⟨x, v⟩ := e
    by_cases hx : x = key <;> by_cases hk : k = key <;> by_cases hxk : x = k <;>
      simp_all [find?]

/-- A value that is changed with all others has its key as before. -/
theorem get?_mapValues {β : Type w} (t : Table κ α) (f : α → β) (k : κ) :
    (t.mapValues f).get? k = (t.get? k).map f := by
  obtain ⟨entries⟩ := t
  simp only [mapValues, get?]
  induction entries with
  | nil => rfl
  | cons e rest ih =>
    obtain ⟨x, v⟩ := e
    by_cases hxk : x = k <;> simp_all [find?]

/-! ## Laws of keys and values -/

omit [DecidableEq κ] in
/-- There are as many keys as there are entries. -/
theorem length_keys (t : Table κ α) : t.keys.length = t.size := List.length_map ..

/-- A key has no value exactly if it is not among the keys. -/
theorem get?_eq_none_iff (t : Table κ α) (key : κ) : t.get? key = none ↔ key ∉ t.keys := by
  obtain ⟨entries⟩ := t
  simp only [get?, keys]
  induction entries with
  | nil => simp [find?]
  | cons e rest ih =>
    obtain ⟨k, v⟩ := e
    by_cases hk : k = key
    · simp [find?, hk]
    · have hne : key ≠ k := fun h => hk h.symm
      simp [find?, hk, hne, ih]

/-- The value of a key is among the values. -/
theorem mem_values_of_get? {t : Table κ α} {key : κ} {value : α} (h : t.get? key = some value) :
    value ∈ t.values := by
  obtain ⟨entries⟩ := t
  simp only [get?, values] at h ⊢
  induction entries with
  | nil => cases h
  | cons entry rest ih =>
    obtain ⟨k, v⟩ := entry
    rw [find?] at h
    split at h
    · cases h
      exact List.mem_cons_self
    · exact List.mem_cons_of_mem _ (ih h)

/-- A new key comes behind the others. -/
theorem keys_set_of_new {t : Table κ α} {key : κ} (h : t.get? key = none) (value : α) :
    (t.set key value).keys = t.keys ++ [key] := by
  obtain ⟨entries⟩ := t
  simp only [get?, set, keys] at h ⊢
  induction entries with
  | nil => rfl
  | cons e rest ih =>
    obtain ⟨k, v⟩ := e
    rw [find?] at h
    split at h
    · cases h
    · rename_i hk
      simp [setIn, hk, ih h]

end Table
end ModelGraph
