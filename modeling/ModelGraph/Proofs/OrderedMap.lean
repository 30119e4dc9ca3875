import Mathlib.Data.List.Basic
import Mathlib.Data.List.Induction
import Mathlib.Data.List.Nodup
import ModelGraph.OrderedMap

/-!
# Laws of ordered maps

What each operation on an ordered map does to its two views: the value of a key, and the list of
keys. With these two equations per operation no proof has to look at the entries.

- `get?_insert`, `keys_insert` and their like: one pair of equations per operation.
- `insert_of_get?`, `insert_insert`, `insert_comm_of_mem`: keys that are set more than once.
- `Distinct.insert` and its like: no operation makes a key occur twice.
- `Distinct.ext`: the two views tell a map.
- `keys_foldl`, `get?_foldl`: entries that are taken in one after the other.
- `get?_ofList`, `pairwise_keys_ofList`: a repeated key has its last value at its first place.
-/

namespace ModelGraph.OrderedMap

universe u v

variable {α : Type u} {β : Type v}

/-! ## Entries -/

/-- The value of a key in a list of entries, one entry at a time. Other than the lemma of the
library it compares keys by a proposition, so that inductions over entries can split on it. -/
theorem lookup_cons (k key : String) (v : α) (rest : List (String × α)) :
    ((k, v) :: rest).lookup key = if key = k then some v else rest.lookup key := by
  by_cases h : key = k
  · simp [h]
  · have hne : (key == k) = false := beq_eq_false_iff_ne.mpr h
    simp only [List.lookup_cons, hne, if_neg h]

/-- A key has no value in a list of entries exactly if none of the entries has this key. -/
theorem lookup_eq_none_iff (key : String) (l : List (String × α)) :
    l.lookup key = none ↔ key ∉ l.map Prod.fst := by
  induction l with
  | nil => simp
  | cons e rest ih =>
    obtain ⟨k, v⟩ := e
    rw [lookup_cons]
    by_cases h : key = k
    · simp [h]
    · simp [h, ih]

/-- Where no key occurs twice, the value of a key is that of its only entry. -/
theorem lookup_eq_some_iff_mem {l : List (String × α)} (h : (l.map Prod.fst).Nodup) (key : String)
    (v : α) : l.lookup key = some v ↔ (key, v) ∈ l := by
  induction l with
  | nil => simp
  | cons e rest ih =>
    obtain ⟨k, w⟩ := e
    simp only [List.map_cons, List.nodup_cons] at h
    rw [lookup_cons]
    by_cases hk : key = k
    -- the head is found, and no entry behind it may have the key
    · subst hk
      have hnot : (key, v) ∉ rest := fun hm => h.1 (List.mem_map_of_mem (f := Prod.fst) hm)
      simp [hnot, eq_comm]
    · simp [hk, ih h.2]

/-- Where the keys of some elements are distinct, an element is the one that is found under its
key. -/
theorem find?_key {γ : Type v} [DecidableEq γ] {key : α → γ} {l : List α} (h : (l.map key).Nodup)
    {a : α} (ha : a ∈ l) : l.find? (key · == key a) = some a := by
  induction l with
  | nil => cases ha
  | cons b rest ih =>
    rw [List.map_cons, List.nodup_cons] at h
    rw [List.find?_cons]
    rcases List.mem_cons.mp ha with rfl | hrest
    · simp
    · -- the head has another key, so the search goes on
      have hne : (key b == key a) = false := by
        rw [beq_eq_false_iff_ne]
        exact fun heq => h.1 (heq ▸ List.mem_map_of_mem hrest)
      rw [hne]
      exact ih h.2 hrest

/-- What is found among entries after the value of one key was changed among them. Only the first
entry of the key is changed, and it is the only one that is ever found. -/
private theorem lookup_modifyEntries (key k : String) (f : α → α) (l : List (String × α)) :
    (modifyEntries key f l).lookup k =
      if k = key then (l.lookup k).map f else l.lookup k := by
  induction l with
  | nil => simp [modifyEntries]
  | cons e rest ih =>
    obtain ⟨x, v⟩ := e
    by_cases hx : x = key
    · -- the first occurrence of the key, which is the one that `lookup` finds
      subst hx
      by_cases hk : k = x <;> simp [modifyEntries, lookup_cons, hk]
    · by_cases hk : k = key
      · subst hk
        have hne : ¬ k = x := fun e => hx e.symm
        simpa [modifyEntries, lookup_cons, hx, hne] using ih
      · simp [modifyEntries, lookup_cons, hx, hk, ih]

/-- Changing a value among entries leaves all keys where they are. -/
private theorem keys_modifyEntries (key : String) (f : α → α) (l : List (String × α)) :
    (modifyEntries key f l).map Prod.fst = l.map Prod.fst := by
  induction l with
  | nil => rfl
  | cons e rest ih =>
    obtain ⟨x, v⟩ := e
    by_cases hx : x = key <;> simp [modifyEntries, hx, ih]

/-! ## Views -/

/-- No key has a value in the map without entries. -/
@[simp]
theorem get?_empty (key : String) : (empty : OrderedMap α).get? key = none := rfl

/-- The map without entries has no keys. -/
@[simp]
theorem keys_empty : (empty : OrderedMap α).keys = [] := rfl

/-- A key has no value exactly if it is not among the keys. -/
theorem get?_eq_none_iff (m : OrderedMap α) (key : String) : m.get? key = none ↔ key ∉ m.keys :=
  lookup_eq_none_iff key m.entries

/-- A key has a value exactly if it is among the keys. -/
theorem contains_iff (m : OrderedMap α) (key : String) : m.contains key = true ↔ key ∈ m.keys := by
  rw [contains, Option.isSome_iff_ne_none, ne_eq, get?_eq_none_iff, Decidable.not_not]

/-- The keys are those that have a value. -/
theorem mem_keys_iff (m : OrderedMap α) (key : String) :
    key ∈ m.keys ↔ ∃ v, m.get? key = some v := by
  rw [← contains_iff, contains, Option.isSome_iff_exists]

/-- Where no key occurs twice, the values of keys are told by the entries. Without this a second
entry of a key would never be found. -/
theorem Distinct.get?_eq_some_iff {m : OrderedMap α} (h : m.Distinct) (key : String) (v : α) :
    m.get? key = some v ↔ (key, v) ∈ m.entries :=
  lookup_eq_some_iff_mem h key v

/-- There are as many keys as there are entries. -/
@[simp]
theorem length_keys (m : OrderedMap α) : m.keys.length = m.size := by simp [keys, size]

/-! ## Changing one entry -/

/-- Changing the value of a key changes the value of this key alone, and only if it has one. -/
theorem get?_modify (m : OrderedMap α) (key k : String) (f : α → α) :
    (m.modify key f).get? k = if k = key then (m.get? k).map f else m.get? k :=
  lookup_modifyEntries key k f m.entries

/-- Changing a value leaves all keys where they are. -/
@[simp]
theorem keys_modify (m : OrderedMap α) (key : String) (f : α → α) :
    (m.modify key f).keys = m.keys :=
  keys_modifyEntries key f m.entries

/-- A new entry behind all others gives a value to its own key alone. -/
private theorem get?_append_new {m : OrderedMap α} {key : String} (h : m.contains key = false)
    (value : α) (k : String) :
    (⟨m.entries ++ [(key, value)]⟩ : OrderedMap α).get? k =
      if k = key then some value else m.get? k := by
  have hnone : m.get? key = none := by simpa [contains] using h
  simp only [get?] at hnone ⊢
  rw [List.lookup_append, lookup_cons]
  by_cases hk : k = key
  · subst hk
    simp [hnone]
  · simp [hk]

/-- Setting a key changes the value of this key alone. Whether it is changed in place or appended is
not to be seen here, only in the order of the keys. -/
theorem get?_insert (m : OrderedMap α) (key k : String) (value : α) :
    (m.insert key value).get? k = if k = key then some value else m.get? k := by
  unfold insert
  split
  · -- a key with a value is changed in place
    rename_i h
    rw [get?_modify]
    obtain ⟨v, hv⟩ := Option.isSome_iff_exists.mp h
    by_cases hk : k = key
    · subst hk
      simp [hv]
    · simp [hk]
  · rename_i h
    exact get?_append_new (by simpa using h) value k

/-- A new key comes last, and a key that has a value stays at its place. -/
theorem keys_insert (m : OrderedMap α) (key : String) (value : α) :
    (m.insert key value).keys = if key ∈ m.keys then m.keys else m.keys ++ [key] := by
  unfold insert
  by_cases h : key ∈ m.keys
  · rw [if_pos ((contains_iff m key).mpr h), if_pos h, keys_modify]
  · rw [if_neg (fun hc => h ((contains_iff m key).mp hc)), if_neg h]
    simp [keys]

/-- A new key is set at the end. -/
theorem insert_of_new {m : OrderedMap α} {key : String} (h : key ∉ m.keys) (value : α) :
    m.insert key value = ⟨m.entries ++ [(key, value)]⟩ := by
  rw [insert, if_neg fun hc => h ((contains_iff m key).mp hc)]

/-- Two changes of the value of one key are one change, since both find the same entry. -/
theorem modifyEntries_modifyEntries (key : String) (f g : α → α) (l : List (String × α)) :
    modifyEntries key g (modifyEntries key f l) = modifyEntries key (g ∘ f) l := by
  induction l with
  | nil => rfl
  | cons e rest ih =>
    obtain ⟨x, v⟩ := e
    by_cases hx : x = key <;> simp [modifyEntries, hx, ih]

/-- The values of two keys can be changed in either order. -/
theorem modifyEntries_comm {key key' : String} (h : key ≠ key') (f g : α → α)
    (l : List (String × α)) :
    modifyEntries key f (modifyEntries key' g l) =
      modifyEntries key' g (modifyEntries key f l) := by
  induction l with
  | nil => rfl
  | cons e rest ih =>
    obtain ⟨x, v⟩ := e
    -- an entry has one of the two keys at most
    by_cases hx : x = key
    · subst hx
      simp [modifyEntries, h]
    · by_cases hx' : x = key'
      · subst hx'
        simp [modifyEntries, hx]
      · simp [modifyEntries, hx, hx', ih]

/-- What comes behind the first entry of a key plays no part when its value is changed. -/
theorem modifyEntries_append {key : String} {l : List (String × α)} (h : key ∈ l.map Prod.fst)
    (f : α → α) (l' : List (String × α)) :
    modifyEntries key f (l ++ l') = modifyEntries key f l ++ l' := by
  induction l with
  | nil => cases h
  | cons e rest ih =>
    obtain ⟨x, v⟩ := e
    by_cases hx : x = key
    -- the entry of the key is reached before the second list
    · simp [modifyEntries, hx]
    · have hrest : key ∈ rest.map Prod.fst := (List.mem_cons.mp h).resolve_left (Ne.symm hx)
      simp [modifyEntries, hx, ih hrest]

/-- Entries of other keys in front of a key are passed over when its value is changed. -/
theorem modifyEntries_append_of_new {key : String} {l : List (String × α)}
    (h : key ∉ l.map Prod.fst) (f : α → α) (l' : List (String × α)) :
    modifyEntries key f (l ++ l') = l ++ modifyEntries key f l' := by
  induction l with
  | nil => rfl
  | cons e rest ih =>
    obtain ⟨x, v⟩ := e
    rw [List.map_cons, List.mem_cons, not_or] at h
    simp [modifyEntries, Ne.symm h.1, ih h.2]

/-- A key that has a value is set in place. -/
theorem insert_of_mem {m : OrderedMap α} {key : String} (h : key ∈ m.keys) (value : α) :
    m.insert key value = m.modify key fun _ => value := by
  rw [insert, if_pos ((contains_iff m key).mpr h)]

/-- A change that gives a key the value that it has changes nothing. -/
theorem modifyEntries_eq_self {key : String} {f : α → α} {l : List (String × α)}
    (h : (l.lookup key).map f = l.lookup key) : modifyEntries key f l = l := by
  induction l with
  | nil => rfl
  | cons e rest ih =>
    obtain ⟨x, v⟩ := e
    rw [lookup_cons] at h
    -- only the first entry with the key is changed, and its value stays
    by_cases hx : x = key
    · subst hx
      rw [if_pos rfl] at h
      rw [modifyEntries, if_pos rfl, Option.some.inj h]
    · rw [if_neg (Ne.symm hx)] at h
      rw [modifyEntries, if_neg hx, ih h]

/-- A key that is set to the value that it has is set to nothing new. -/
theorem insert_of_get? {m : OrderedMap α} {key : String} {value : α}
    (h : m.get? key = some value) : m.insert key value = m := by
  rw [insert_of_mem ((mem_keys_iff m key).mpr ⟨value, h⟩)]
  refine congrArg mk (modifyEntries_eq_self ?_)
  rw [get?] at h
  rw [h, Option.map_some]

/-- Of two values that a key is set to, the second one stays. The key may be new before the first of
them, and then both are set at the end. -/
theorem insert_insert (m : OrderedMap α) (key : String) (value value' : α) :
    (m.insert key value).insert key value' = m.insert key value' := by
  have hmem : key ∈ (m.insert key value).keys := by
    rw [mem_keys_iff]
    exact ⟨value, by rw [get?_insert, if_pos rfl]⟩
  rw [insert_of_mem hmem]
  by_cases h : key ∈ m.keys
  · rw [insert_of_mem h, insert_of_mem h]
    exact congrArg mk (modifyEntries_modifyEntries key _ _ m.entries)
  -- the first value is appended, and the second one finds it behind all others
  · rw [insert_of_new h, insert_of_new h]
    apply congrArg mk
    rw [modifyEntries_append_of_new h]
    simp [modifyEntries]

/-- A key that is there can be set before or after another one. Two new keys cannot: the order in
which they are set is the order in which they stand. -/
theorem insert_comm_of_mem {m : OrderedMap α} {key key' : String} (h : key ∈ m.keys)
    (hne : key ≠ key') (value value' : α) :
    (m.insert key' value').insert key value = (m.insert key value).insert key' value' := by
  have hmem : key ∈ (m.insert key' value').keys := by
    rw [keys_insert]
    split
    · exact h
    · exact List.mem_append_left _ h
  rw [insert_of_mem hmem, insert_of_mem h]
  -- the other key is changed in place, or appended behind the first one
  by_cases h' : key' ∈ m.keys
  · have hmem' : key' ∈ (m.modify key fun _ => value).keys := by rwa [keys_modify]
    rw [insert_of_mem h', insert_of_mem hmem']
    exact congrArg mk (modifyEntries_comm hne _ _ m.entries)
  · have hnew' : key' ∉ (m.modify key fun _ => value).keys := by rwa [keys_modify]
    rw [insert_of_new h', insert_of_new hnew']
    exact congrArg mk (modifyEntries_append h _ _)

/-- Setting a new key only gives a value to a key that has none. All other keys have what they had.
-/
theorem get?_insertIfNew (m : OrderedMap α) (key k : String) (value : α) :
    (m.insertIfNew key value).get? k =
      if k = key then some ((m.get? key).getD value) else m.get? k := by
  unfold insertIfNew
  split
  · rename_i h
    -- the key has a value, which is not touched
    obtain ⟨v, hv⟩ := Option.isSome_iff_exists.mp h
    by_cases hk : k = key
    · subst hk
      simp [hv]
    · simp [hk]
  · rename_i h
    have hnone : m.get? key = none := by simpa [contains] using h
    rw [get?_append_new (by simpa using h) value k, hnone]
    rfl

/-- A key that is set only if it is new comes last then, and otherwise no key moves. -/
theorem keys_insertIfNew (m : OrderedMap α) (key : String) (value : α) :
    (m.insertIfNew key value).keys = if key ∈ m.keys then m.keys else m.keys ++ [key] := by
  unfold insertIfNew
  by_cases h : key ∈ m.keys
  · rw [if_pos ((contains_iff m key).mpr h), if_pos h]
  · rw [if_neg (fun hc => h ((contains_iff m key).mp hc)), if_neg h]
    simp [keys]

/-- Erasing a key leaves every other key alone, whether the key occurs once, more often or not at
all. -/
theorem get?_erase_of_ne (m : OrderedMap α) {key k : String} (h : k ≠ key) :
    (m.erase key).get? k = m.get? k := by
  obtain ⟨entries⟩ := m
  change (eraseEntries key entries).lookup k = entries.lookup k
  induction entries with
  | nil => rfl
  | cons e rest ih =>
    obtain ⟨x, v⟩ := e
    by_cases hx : x = key
    -- the entry that is taken out has another key, so the search passes it in either list
    · have hk : ¬ k = x := fun heq => h (heq.trans hx)
      rw [eraseEntries, if_pos hx, lookup_cons, if_neg hk]
    · rw [eraseEntries, if_neg hx, lookup_cons, lookup_cons, ih]

/-- Erasing a key takes one entry out and leaves the others in their order. -/
theorem entries_erase_sublist (m : OrderedMap α) (key : String) :
    (m.erase key).entries.Sublist m.entries := by
  obtain ⟨entries⟩ := m
  change (eraseEntries key entries).Sublist entries
  induction entries with
  | nil => exact List.Sublist.refl []
  | cons e rest ih =>
    obtain ⟨k, v⟩ := e
    rw [eraseEntries]
    split
    · exact List.sublist_cons_self _ _
    · exact ih.cons_cons (k, v)

/-- Erasing a key takes its first occurrence out of the keys. -/
theorem keys_erase (m : OrderedMap α) (key : String) : (m.erase key).keys = m.keys.erase key := by
  obtain ⟨entries⟩ := m
  change (eraseEntries key entries).map Prod.fst = (entries.map Prod.fst).erase key
  induction entries with
  | nil => rfl
  | cons e rest ih =>
    obtain ⟨k, v⟩ := e
    by_cases hk : k = key
    · simp [eraseEntries, hk]
    · simp [eraseEntries, hk, ih]

/-- Where no key occurs twice, erasing a key leaves the others in their order. -/
theorem Distinct.keys_erase_eq_filter {m : OrderedMap α} (h : m.Distinct) (key : String) :
    (m.erase key).keys = m.keys.filter (· ≠ key) := by
  rw [keys_erase, List.Nodup.erase_eq_filter h]
  refine List.filter_congr fun k _ => ?_
  by_cases hk : k = key <;> simp [hk]

/-- Erasing a key that has no value changes nothing. -/
theorem erase_of_new {m : OrderedMap α} {key : String} (h : key ∉ m.keys) : m.erase key = m := by
  obtain ⟨entries⟩ := m
  apply congrArg mk
  induction entries with
  | nil => rfl
  | cons e rest ih =>
    obtain ⟨k, v⟩ := e
    have hmem : key ∉ k :: rest.map Prod.fst := h
    rw [List.mem_cons, not_or] at hmem
    rw [eraseEntries, if_neg (Ne.symm hmem.1), ih hmem.2]

/-- Where no key occurs twice, an erased key has no value left. Only its first entry is taken out,
so a second one would show from behind it. -/
theorem Distinct.get?_erase {m : OrderedMap α} (h : m.Distinct) (key k : String) :
    (m.erase key).get? k = if k = key then none else m.get? k := by
  split
  · rename_i hk
    subst hk
    -- the key was there once, and this entry is gone
    rw [get?_eq_none_iff, keys_erase]
    exact h.not_mem_erase
  · rename_i hk
    exact get?_erase_of_ne m hk

/-! ## All entries -/

/-- What is found among entries after all values were changed. -/
private theorem lookup_mapValues (f : String → α → β) (key : String) (l : List (String × α)) :
    (l.map fun (k, v) => (k, f k v)).lookup key = (l.lookup key).map (f key) := by
  induction l with
  | nil => rfl
  | cons e rest ih =>
    obtain ⟨k, v⟩ := e
    rw [List.map_cons, lookup_cons, lookup_cons]
    by_cases h : key = k
    · subst h
      simp
    · simp [h, ih]

/-- Where every value is changed, each key has its value changed with the key at hand. -/
@[simp]
theorem get?_mapValues (m : OrderedMap α) (f : String → α → β) (key : String) :
    (m.mapValues f).get? key = (m.get? key).map (f key) :=
  lookup_mapValues f key m.entries

/-- Changing values leaves all keys where they are. -/
@[simp]
theorem keys_mapValues (m : OrderedMap α) (f : String → α → β) : (m.mapValues f).keys = m.keys := by
  simp [mapValues, keys, Function.comp_def]

/-- Entries that are dropped leave the keys of the others in their order. -/
theorem keys_filterMapValues_sublist (m : OrderedMap α) (f : String → α → Option β) :
    (m.filterMapValues f).keys.Sublist m.keys := by
  obtain ⟨entries⟩ := m
  change ((entries.filterMap fun (k, v) => (f k v).map fun w => (k, w)).map Prod.fst).Sublist
    (entries.map Prod.fst)
  induction entries with
  | nil => exact List.Sublist.refl []
  | cons e rest ih =>
    obtain ⟨k, v⟩ := e
    -- an entry is dropped with its key, or kept under the same key
    cases hf : f k v with
    | none => simpa [List.filterMap_cons, hf] using ih.trans (List.sublist_cons_self _ _)
    | some w => simpa [List.filterMap_cons, hf] using ih

/-- Where no key occurs twice, each key is dropped or changed on its own. A second entry with the
key would otherwise come to the front when the first one is dropped. -/
theorem Distinct.get?_filterMapValues {m : OrderedMap α} (h : m.Distinct)
    (f : String → α → Option β) (key : String) :
    (m.filterMapValues f).get? key = (m.get? key).bind (f key) := by
  obtain ⟨entries⟩ := m
  change (entries.filterMap fun (k, v) => (f k v).map fun w => (k, w)).lookup key =
    (entries.lookup key).bind (f key)
  induction entries with
  | nil => rfl
  | cons e rest ih =>
    obtain ⟨k, v⟩ := e
    obtain ⟨hk, hrest⟩ := List.nodup_cons.mp (show (k :: rest.map Prod.fst).Nodup from h)
    have ih := ih hrest
    rw [lookup_cons]
    by_cases hkey : key = k
    · subst hkey
      cases hf : f key v with
      | none =>
        -- the key does not occur again, so nothing is found behind the dropped entry
        have hnone : rest.lookup key = none := (lookup_eq_none_iff key rest).mpr hk
        simpa [List.filterMap_cons, hf, hnone] using ih
      | some w => simp [hf]
    · cases hf : f k v with
      | none => simpa [List.filterMap_cons, hf, hkey] using ih
      | some w => simpa [List.filterMap_cons, hf, lookup_cons, hkey] using ih

/-! ## Distinct keys -/

/-- In the map without entries no key occurs twice. -/
theorem distinct_empty : (empty : OrderedMap α).Distinct := List.nodup_nil

/-- A new key may come behind keys of which none occurs twice. -/
private theorem nodup_concat {l : List String} (h : l.Nodup) {key : String} (hk : key ∉ l) :
    (l ++ [key]).Nodup := by
  rw [← List.concat_eq_append]
  exact List.Nodup.concat hk h

/-- No key occurs twice after a value was changed. -/
theorem Distinct.modify {m : OrderedMap α} (h : m.Distinct) (key : String) (f : α → α) :
    (m.modify key f).Distinct := by
  rw [Distinct, keys_modify]
  exact h

/-- No key occurs twice after one was set: a key that is there is set in place. -/
theorem Distinct.insert {m : OrderedMap α} (h : m.Distinct) (key : String) (value : α) :
    (m.insert key value).Distinct := by
  rw [Distinct, keys_insert]
  split
  · exact h
  · rename_i hk
    exact nodup_concat h hk

/-- No key occurs twice after one was set if it was new. -/
theorem Distinct.insertIfNew {m : OrderedMap α} (h : m.Distinct) (key : String) (value : α) :
    (m.insertIfNew key value).Distinct := by
  rw [Distinct, keys_insertIfNew]
  split
  · exact h
  · rename_i hk
    exact nodup_concat h hk

/-- No key occurs twice after one was erased. -/
theorem Distinct.erase {m : OrderedMap α} (h : m.Distinct) (key : String) :
    (m.erase key).Distinct :=
  List.Nodup.sublist ((m.entries_erase_sublist key).map Prod.fst) h

/-! ## Equality -/

/-- Where no key occurs twice, the entries are told by the keys and their values. -/
theorem Distinct.entries_eq {m : OrderedMap α} (h : m.Distinct) :
    m.entries = m.keys.filterMap fun key => (m.get? key).map fun value => (key, value) := by
  -- each entry is made again of its key and of the value that is found under it
  rw [keys, List.filterMap_map]
  refine List.filterMap_some.symm.trans (List.filterMap_congr fun e he => ?_)
  have hget : m.get? e.1 = some e.2 := (h.get?_eq_some_iff e.1 e.2).mpr he
  simp [hget]

/-- Maps with the same keys in the same order and with the same values are equal. This is how two
maps are shown to be one: the laws above give the two views of each operation, and nothing else is
known of a map. -/
theorem Distinct.ext {m n : OrderedMap α} (h : m.Distinct) (hkeys : m.keys = n.keys)
    (hget : ∀ key, m.get? key = n.get? key) : m = n := by
  have hn : n.Distinct := by
    unfold Distinct
    rw [← hkeys]
    exact h
  -- the keys and the values tell all entries
  have hentries : m.entries = n.entries := by
    rw [h.entries_eq, hn.entries_eq, hkeys]
    exact List.filterMap_congr fun key _ => by rw [hget key]
  cases m
  cases n
  exact congrArg mk hentries

/-! ## Entries taken in one after the other -/

section TakeIn

variable {step : OrderedMap α → String × β → OrderedMap α}

/-- Where each of some entries with distinct keys is taken in under its key, the keys that are new
follow in their order. Insertions, insertions of new keys and merged values are all taken in like
this, so the hypothesis is about the keys after one step alone. -/
theorem keys_foldl
    (hstep : ∀ m e, (step m e).keys = if e.1 ∈ m.keys then m.keys else m.keys ++ [e.1])
    {l : List (String × β)} (h : (l.map Prod.fst).Nodup) (m : OrderedMap α) :
    (l.foldl step m).keys = m.keys ++ (l.map Prod.fst).filter (· ∉ m.keys) := by
  induction l generalizing m with
  | nil => simp
  | cons e rest ih =>
    rw [List.map_cons, List.nodup_cons] at h
    obtain ⟨hfirst, hrest⟩ := h
    rw [List.foldl_cons, ih hrest, hstep, List.map_cons, List.filter_cons]
    by_cases he : e.1 ∈ m.keys
    · simp [he]
    · -- the key comes last now, but it does not come again in the rest
      have hsame : (rest.map Prod.fst).filter (· ∉ m.keys ++ [e.1]) =
          (rest.map Prod.fst).filter (· ∉ m.keys) := by
        refine List.filter_congr fun key hkey => ?_
        have hne : key ≠ e.1 := fun heq => hfirst (heq ▸ hkey)
        simp [hne]
      simp only [if_neg he, hsame]
      simp [he]

/-- Where each of some entries with distinct keys changes the value of its own key, this value is
made of the old one and of the entry. It meets the value that the key had at the start, as no other
entry has touched it. -/
theorem get?_foldl {value : Option α → β → α}
    (hstep : ∀ m e key, (step m e).get? key =
      if key = e.1 then some (value (m.get? key) e.2) else m.get? key)
    {l : List (String × β)} (h : (l.map Prod.fst).Nodup) (m : OrderedMap α) (key : String) :
    (l.foldl step m).get? key = ((l.lookup key).map (value (m.get? key))).or (m.get? key) := by
  induction l generalizing m with
  | nil => rfl
  | cons e rest ih =>
    obtain ⟨k, b⟩ := e
    rw [List.map_cons, List.nodup_cons] at h
    obtain ⟨hfirst, hrest⟩ := h
    rw [List.foldl_cons, ih hrest, hstep, lookup_cons]
    by_cases hkey : key = k
    · subst hkey
      -- the key does not come again in the rest
      have hnone : rest.lookup key = none := (lookup_eq_none_iff key rest).mpr hfirst
      simp [hnone]
    · simp [hkey]

end TakeIn

/-! ## Maps from lists -/

/-- Entries with distinct keys that are inserted one after the other into a map which has none of
these keys are appended to it as they are. -/
private theorem ofList_fold (l : List (String × α)) :
    ∀ m : OrderedMap α, (∀ k ∈ l.map Prod.fst, k ∉ m.keys) → (l.map Prod.fst).Nodup →
      l.foldl (fun m (k, v) => m.insert k v) m = ⟨m.entries ++ l⟩ := by
  induction l with
  | nil => intro m _ _; simp
  | cons e rest ih =>
    obtain ⟨k, v⟩ := e
    intro m hnew hnodup
    simp only [List.map_cons, List.nodup_cons] at hnodup
    simp only [List.foldl_cons, insert_of_new (hnew k (by simp))]
    rw [ih _ _ hnodup.2, List.append_assoc, List.singleton_append]
    -- the keys that are still to come are not among the entries, the new one included
    intro x hx hmem
    simp only [keys, List.map_append, List.map_cons, List.map_nil, List.mem_append,
      List.mem_singleton] at hmem
    rcases hmem with hmem | rfl
    · exact hnew x (List.mem_cons_of_mem _ hx) hmem
    · exact hnodup.1 hx

/-- Entries with distinct keys are kept as they are. -/
theorem ofList_eq_of_nodup {l : List (String × α)} (h : (l.map Prod.fst).Nodup) :
    ofList l = ⟨l⟩ := by
  rw [ofList, ofList_fold l empty (by simp) h]
  rfl

/-- The last entry of a list is inserted last. -/
theorem ofList_concat (l : List (String × α)) (key : String) (value : α) :
    ofList (l ++ [(key, value)]) = (ofList l).insert key value := by
  simp [ofList]

/-- A repeated key has its last value. -/
theorem get?_ofList (l : List (String × α)) (key : String) :
    (ofList l).get? key = l.reverse.lookup key := by
  induction l using List.reverseRecOn with
  | nil => rfl
  | append_singleton l e ih =>
    obtain ⟨k, v⟩ := e
    -- the last entry is inserted last, and is the first one in the reversed list
    rw [ofList_concat, get?_insert, List.reverse_append, List.reverse_singleton,
      List.singleton_append, lookup_cons, ih]

/-- The keys of a map that is made of entries are those of the entries. -/
theorem mem_keys_ofList (l : List (String × α)) (key : String) :
    key ∈ (ofList l).keys ↔ key ∈ l.map Prod.fst := by
  rw [← not_iff_not, ← get?_eq_none_iff, get?_ofList, lookup_eq_none_iff, List.map_reverse,
    List.mem_reverse]

/-- The keys come in the order of their first places. Together with `get?_ofList` this says all
about a map that is made of entries, repeated keys included. -/
theorem pairwise_keys_ofList (l : List (String × α)) :
    (ofList l).keys.Pairwise fun a b =>
      (l.map Prod.fst).idxOf a < (l.map Prod.fst).idxOf b := by
  induction l using List.reverseRecOn with
  | nil => exact List.Pairwise.nil
  | append_singleton l e ih =>
    obtain ⟨k, v⟩ := e
    rw [ofList_concat, keys_insert, List.map_append]
    have hfirst : ∀ a ∈ (ofList l).keys,
        (l.map Prod.fst ++ [k]).idxOf a = (l.map Prod.fst).idxOf a := fun a ha =>
      List.idxOf_append_of_mem ((mem_keys_ofList l a).mp ha)
    have hkept : (ofList l).keys.Pairwise fun a b =>
        (l.map Prod.fst ++ [k]).idxOf a < (l.map Prod.fst ++ [k]).idxOf b :=
      ih.imp_of_mem fun ha hb hab => by rwa [hfirst _ ha, hfirst _ hb]
    split
    · exact hkept
    · rename_i hk
      -- a key that is new stands behind all entries so far
      have hlast : (l.map Prod.fst ++ [k]).idxOf k = (l.map Prod.fst).length := by
        rw [List.idxOf_append_of_notMem fun h => hk ((mem_keys_ofList l k).mpr h)]
        simp
      refine List.pairwise_append.mpr ⟨hkept, List.pairwise_singleton _ _, fun a ha b hb => ?_⟩
      rw [List.mem_singleton.mp hb, List.map_singleton, hfirst a ha, hlast]
      exact List.idxOf_lt_length_of_mem ((mem_keys_ofList l a).mp ha)

example : ofList [("zeta", 1), ("alpha", 2), ("zeta", 3)] = ⟨[("zeta", 3), ("alpha", 2)]⟩ := by
  decide

end ModelGraph.OrderedMap
