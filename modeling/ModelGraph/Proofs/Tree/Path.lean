import ModelGraph.Proofs.OrderedMap
import ModelGraph.Tree.Path

/-!
# Laws of writing along paths

A write at the end of a path makes maps on the way where there are none, and leaves all entries
beside the path at their places. Writes at the same place replace each other.

- `field?_set`, `child_set`, `field?_child`: one equation for each way to look at a tree after a
  write.
- `ChangedAt`: the keys at which two maps may differ. `changedAt_set` and `ChangedAt.set` give
  them.
- `updateAt_updateAt`, `set_set`, `set_comm_of_mem`: one write after another one.
- `Rearranged`: trees that differ at most in the order of entries.
- `Place`, `foldl_enter_set`: writing a path in place, key by key.
- `at?_updateAt`, `at?_setAt_of_apart`, `changedAt_setAt`: what is found along paths after a
  write.
- `setAt_lens`: the laws of reading and writing along paths together.
-/

namespace ModelGraph.Tree

variable {t t' : Tree} {key k : String} {value : Tree} {f g : Tree → Tree}

/-! ## Looking -/

/-- Setting a key sets it among the entries. A tree that is no map has none, so it becomes the map
with this entry alone. -/
@[simp]
theorem fields_set (t : Tree) (key : String) (value : Tree) :
    (t.set key value).fields = t.fields.insert key value := rfl

/-- The value of a key is among the entries; there are none unless the tree is a map. -/
theorem field?_eq_get? (t : Tree) (key : String) : t.field? key = t.fields.get? key := by
  cases t with
  | map m => rfl
  | seq items => rfl
  | scalar v => rfl

/-- Setting a key changes the value of this key alone. -/
theorem field?_set (t : Tree) (key k : String) (value : Tree) :
    (t.set key value).field? k = if k = key then some value else t.field? k := by
  rw [field?_eq_get?, field?_eq_get?, fields_set, OrderedMap.get?_insert]

/-- The key that is set has the value. -/
theorem field?_set_self (t : Tree) (key : String) (value : Tree) :
    (t.set key value).field? key = some value := by rw [field?_set, if_pos rfl]

/-- Any other key has the value that it had, or none as before. -/
theorem field?_set_of_ne (t : Tree) (h : k ≠ key) (value : Tree) :
    (t.set key value).field? k = t.field? k := by rw [field?_set, if_neg h]

/-- The map below a key has the entries of what is found there. -/
theorem fields_child (t : Tree) (key : String) :
    (t.child key).fields = ((t.field? key).map fields).getD OrderedMap.empty := by
  rw [child]
  cases t.field? key <;> rfl

/-- The map below a key that has a value is this value made a map. -/
theorem child_of_field? (h : t.field? key = some value) : t.child key = value.toMap := by
  rw [child, h]
  rfl

/-- The map below a key holds what is found there, key by key. -/
theorem field?_child (t : Tree) (key k : String) :
    (t.child key).field? k = (t.field? key).bind (·.field? k) := by
  rw [field?_eq_get?, fields_child]
  cases t.field? key with
  | none => rfl
  | some inner => exact (field?_eq_get? inner k).symm

/-- The map below a key that has been set is the new value made a map. -/
theorem child_set_self (t : Tree) (key : String) (value : Tree) :
    (t.set key value).child key = value.toMap :=
  child_of_field? (field?_set_self t key value)

/-- The map below any other key is the same. -/
theorem child_set_of_ne (t : Tree) (h : k ≠ key) (value : Tree) :
    (t.set key value).child k = t.child k := by
  rw [child, child, field?_set_of_ne t h]

/-- What stands below a key after a change is what the change has made of the map there. -/
theorem field?_updateChild_self (t : Tree) (key : String) (f : Tree → Tree) :
    (t.updateChild key f).field? key = some (f (t.child key)) := field?_set_self t key _

/-! ## What is kept -/

/-- The second tree is a map with the entries of the first one, at the same places, but for the
values of some keys. Those of these keys that are new come last. A tree that is no map counts as one
without entries here, since that is what writing makes of it. -/
structure ChangedAt (keys : List String) (t t' : Tree) : Prop where
  isMap : t'.toMap = t'
  keys_eq : t'.fields.keys = t.fields.keys ++ keys.filter (· ∉ t.fields.keys)
  others : ∀ k ∉ keys, t'.field? k = t.field? k

/-- Setting a key changes nothing but this key. -/
theorem changedAt_set (t : Tree) (key : String) (value : Tree) :
    ChangedAt [key] t (t.set key value) where
  isMap := rfl
  keys_eq := by
    rw [fields_set, OrderedMap.keys_insert]
    by_cases h : key ∈ t.fields.keys <;> simp [h]
  others k hk := field?_set_of_ne t (fun heq => hk (List.mem_singleton.mpr heq)) value

/-- One more key that is set. -/
theorem ChangedAt.set {keys : List String} (h : ChangedAt keys t t') (hkey : key ∉ keys)
    (value : Tree) : ChangedAt (keys ++ [key]) t (t'.set key value) where
  isMap := rfl
  keys_eq := by
    -- the key is new after the first changes if and only if it was new before them
    have hmem : key ∈ t'.fields.keys ↔ key ∈ t.fields.keys := by
      rw [h.keys_eq, List.mem_append, List.mem_filter]
      exact or_iff_left fun hadded => hkey hadded.1
    rw [fields_set, OrderedMap.keys_insert, h.keys_eq]
    rw [h.keys_eq] at hmem
    by_cases hold : key ∈ t.fields.keys
    · rw [if_pos (hmem.mpr hold)]
      simp [hold]
    · rw [if_neg fun hnew => hold (hmem.mp hnew)]
      simp [hold]
  others k hk := by
    rw [List.mem_append, List.mem_singleton, not_or] at hk
    exact (field?_set_of_ne t' hk.2 value).trans (h.others k hk.1)

/-- Changing the map below a key changes nothing but this key. -/
theorem changedAt_updateChild (t : Tree) (key : String) (f : Tree → Tree) :
    ChangedAt [key] t (t.updateChild key f) := changedAt_set t key _

/-! ## One write after another one -/

/-- The map below a key is a map. -/
theorem toMap_child (t : Tree) (key : String) : (t.child key).toMap = t.child key := by
  rw [child]
  cases t.field? key <;> rfl

/-- A change at the end of a path leaves a map at the top, if it makes maps of maps. -/
theorem toMap_updateAt (hf : ∀ s, s.toMap = s → (f s).toMap = f s) (ht : t.toMap = t)
    (path : List String) : (t.updateAt f path).toMap = t.updateAt f path := by
  cases path with
  | nil => exact hf t ht
  | cons key rest => rfl

/-- Of two values that a key is set to, the second one stays. -/
theorem set_set (t : Tree) (key : String) (value value' : Tree) :
    (t.set key value).set key value' = t.set key value' :=
  congrArg map (OrderedMap.insert_insert t.fields key value value')

/-- A key that is there can be set before or after another one. -/
theorem set_comm_of_mem (h : key ∈ t.fields.keys) (hne : key ≠ k) (value value' : Tree) :
    (t.set k value').set key value = (t.set key value).set k value' :=
  congrArg map (OrderedMap.insert_comm_of_mem h hne value value')

/-- Two changes of the map below a key are one change, if the first one leaves a map there. -/
theorem updateChild_updateChild (hf : (f (t.child key)).toMap = f (t.child key)) (g : Tree → Tree) :
    (t.updateChild key f).updateChild key g = t.updateChild key (g ∘ f) := by
  rw [updateChild, updateChild, child_set_self, hf, set_set]
  rfl

/-- Two changes at the end of the same path are one change there, if the first one makes maps of
maps. -/
theorem updateAt_updateAt (hf : ∀ s, s.toMap = s → (f s).toMap = f s) (g : Tree → Tree) (t : Tree)
    (path : List String) : (t.updateAt f path).updateAt g path = t.updateAt (g ∘ f) path := by
  induction path generalizing t with
  | nil => rfl
  | cons key rest ih =>
    refine (updateChild_updateChild (toMap_updateAt hf (toMap_child t key) rest) _).trans ?_
    exact congrArg (t.updateChild key) (funext ih)

/-- A change at the end of a path is one further down at the end of the first part of the path. -/
theorem updateAt_append (t : Tree) (f : Tree → Tree) (path rest : List String) :
    t.updateAt f (path ++ rest) = t.updateAt (·.updateAt f rest) path := by
  induction path generalizing t with
  | nil => rfl
  | cons key path ih => exact congrArg (t.updateChild key) (funext ih)

/-! ## The order of entries -/

/-- Trees that differ at most in the order of the entries of maps, at any level. Two writes at
different places may be made in either order up to this. -/
inductive Rearranged : Tree → Tree → Prop where
  | same (t : Tree) : Rearranged t t
  | map {m m' : OrderedMap Tree} (keys : m.keys.Perm m'.keys)
      (values : ∀ key v v', m.get? key = some v → m'.get? key = some v' → Rearranged v v') :
      Rearranged (map m) (map m')

/-- The values of a key may differ in the order of entries. -/
theorem Rearranged.set (t : Tree) (key : String) (h : Rearranged t' value) :
    Rearranged (t.set key t') (t.set key value) := by
  refine .map ?_ fun k v v' hv hv' => ?_
  · rw [OrderedMap.keys_insert, OrderedMap.keys_insert]
  · rw [OrderedMap.get?_insert] at hv hv'
    -- only the values of the key differ, and only in the order of entries
    by_cases hk : k = key
    · rw [if_pos hk] at hv hv'
      cases hv
      cases hv'
      exact h
    · rw [if_neg hk] at hv hv'
      rw [hv] at hv'
      cases hv'
      exact .same v

/-- Two keys can be set in either order, but for the order of the two. -/
theorem set_comm_rearranged (t : Tree) (hne : key ≠ k) (value value' : Tree) :
    Rearranged ((t.set k value').set key value) ((t.set key value).set k value') := by
  have hget : ∀ j, ((t.fields.insert k value').insert key value).get? j =
      ((t.fields.insert key value).insert k value').get? j := by
    intro j
    simp only [OrderedMap.get?_insert]
    by_cases hj : j = key
    · subst hj
      simp [hne]
    · simp [hj]
  refine .map ?_ fun j v v' hv hv' => ?_
  · simp only [fields_set, OrderedMap.keys_insert]
    by_cases hkey : key ∈ t.fields.keys <;> by_cases hk : k ∈ t.fields.keys <;>
      simp [hkey, hk, hne, hne.symm]
    -- both are new
    exact (List.Perm.swap key k []).append_left t.fields.keys
  · rw [fields_set, hget j] at hv
    rw [fields_set, hv] at hv'
    cases hv'
    exact .same v

/-- Changes that give the same but for the order of entries do so at the end of a path. -/
theorem Rearranged.updateAt (h : ∀ s, Rearranged (f s) (g s)) (t : Tree) (path : List String) :
    Rearranged (t.updateAt f path) (t.updateAt g path) := by
  induction path generalizing t with
  | nil => exact h t
  | cons key rest ih => exact Rearranged.set t key (ih (t.child key))

/-- The maps below two keys can be changed in either order, but for the order of the two. -/
theorem updateChild_comm_rearranged (t : Tree) (hne : key ≠ k) (f g : Tree → Tree) :
    Rearranged ((t.updateChild k g).updateChild key f) ((t.updateChild key f).updateChild k g) := by
  rw [updateChild, updateChild, updateChild, updateChild, child_set_of_ne t hne,
    child_set_of_ne t hne.symm]
  exact set_comm_rearranged t hne _ _

/-! ## Writes through references -/

/-- A place in a tree that is changed in place: the tree as it is by now, and the keys that lead to
the place. -/
structure Place where
  tree : Tree
  path : List String

/-- Goes on to the map below a key, which is made there if there is none. -/
def Place.enter (p : Place) (key : String) : Place :=
  ⟨p.tree.updateAt (·.updateChild key id) p.path, p.path ++ [key]⟩

/-- Sets a key of the place. -/
def Place.set (p : Place) (key : String) (value : Tree) : Tree :=
  p.tree.updateAt (·.set key value) p.path

/-- Going along a path makes the maps on the way, and what is changed at its end afterwards could
have been changed at once. -/
theorem updateAt_id_updateAt (t : Tree) (f : Tree → Tree) (path : List String) :
    (t.updateAt id path).updateAt f path = t.updateAt f path :=
  updateAt_updateAt (fun _ hs => hs) f t path

/-- Going along a path in place makes the maps on the way and ends at the path. -/
theorem foldl_enter (t : Tree) (path : List String) :
    path.foldl Place.enter ⟨t, []⟩ = ⟨t.updateAt id path, path⟩ := by
  induction path using List.reverseRecOn with
  | nil => rfl
  | append_singleton path key ih =>
    rw [List.foldl_append, ih]
    -- the last step makes one map more, at the end of those that are there
    have htree : (t.updateAt id path).updateAt (·.updateChild key id) path =
        t.updateAt id (path ++ [key]) :=
      (updateAt_id_updateAt t _ path).trans (updateAt_append t id path [key]).symm
    exact congrArg (Place.mk · (path ++ [key])) htree

/-- A path is written by going along it in place, key by key, and by setting the last key there. -/
theorem foldl_enter_set (t : Tree) (path : List String) (key : String) (value : Tree) :
    (path.foldl Place.enter ⟨t, []⟩).set key value = t.setAt path key value := by
  rw [foldl_enter]
  exact updateAt_id_updateAt t _ path

/-! ## Reading after a write -/

variable {path before rest q : List String}

/-- What is found along a path that goes on below a key is found from the map below the key. -/
theorem at?_child (t : Tree) (key k : String) (rest : List String) :
    (t.child key).at? (k :: rest) = t.at? (key :: k :: rest) := by
  rw [at?, at?, field?_child]
  cases t.field? key with
  | none => rfl
  | some inner => rfl

/-- At the end of a path stands what has been made there of the maps on the way, and what is found
from there on is found in it. -/
theorem at?_updateAt (t : Tree) (f : Tree → Tree) (path rest : List String) :
    (t.updateAt f path).at? (path ++ rest) = (f (path.foldl child t)).at? rest := by
  induction path generalizing t with
  | nil => rfl
  | cons key path ih =>
    rw [updateAt, List.cons_append, at?, field?_updateChild_self, Option.bind_some, ih,
      List.foldl_cons]

/-- What has been written is read. -/
theorem at?_setAt (t : Tree) (path : List String) (key : String) (value : Tree) :
    (t.setAt path key value).at? (path ++ [key]) = some value := by
  rw [setAt, at?_updateAt, at?, field?_set_self]
  rfl

/-- A path that branches off the way of a write leads where it led before. There need not be maps on
the way: along keys nothing is found in a tree that is no map. -/
theorem at?_setAt_of_apart (hq : ¬ q <+: path ++ [key]) (hpath : ¬ path ++ [key] <+: q) (t : Tree)
    (value : Tree) : (t.setAt path key value).at? q = t.at? q := by
  induction path generalizing t q with
  | nil =>
    cases q with
    | nil => exact absurd List.nil_prefix hq
    | cons k q =>
      -- the paths differ in their only key
      have hne : k ≠ key :=
        fun heq => hpath (heq ▸ List.cons_prefix_cons.mpr ⟨rfl, List.nil_prefix⟩)
      rw [setAt, updateAt, at?, at?, field?_set_of_ne t hne]
  | cons first path ih =>
    cases q with
    | nil => exact absurd List.nil_prefix hq
    | cons k q =>
      rw [setAt, updateAt, at?]
      by_cases hk : k = first
      · subst hk
        rw [List.cons_append, List.cons_prefix_cons] at hq hpath
        have hq' : ¬ q <+: path ++ [key] := fun h => hq ⟨rfl, h⟩
        rw [field?_updateChild_self, Option.bind_some]
        refine (ih hq' (fun h => hpath ⟨rfl, h⟩) (t.child k)).trans ?_
        -- the two paths have not branched yet, so this one goes on
        cases q with
        | nil => exact absurd List.nil_prefix hq'
        | cons k' q => exact at?_child t k k' q
      · rw [updateChild, field?_set_of_ne t hk, at?]

/-! ### Levels -/

/-- The entries at the end of a path that begins at a key are those found from the map below the
key. -/
theorem fields_at?_child (t : Tree) (key : String) (path : List String) :
    (((t.child key).at? path).getD emptyMap).fields =
      ((t.at? (key :: path)).getD emptyMap).fields := by
  cases path with
  | nil =>
    rw [at?, Option.getD_some, fields_child, at?]
    cases t.field? key with
    | none => rfl
    | some inner => rfl
  | cons k rest => rw [at?_child]

/-- Of a tree that is changed only the entries matter. -/
theorem ChangedAt.of_fields {keys : List String} {s : Tree} (h : ChangedAt keys t t')
    (hfields : t.fields = s.fields) : ChangedAt keys s t' where
  isMap := h.isMap
  keys_eq := hfields ▸ h.keys_eq
  others k hk := by rw [h.others k hk, field?_eq_get?, field?_eq_get?, hfields]

/-- At each level of the way of a write stands a map in which only the next key of the way has
changed. Where there was no map it has this key alone. With this the keys keep their order at every
level, not only at the place of the write. -/
theorem changedAt_setAt (h : path ++ [key] = before ++ k :: rest) (t value : Tree) :
    ∃ inner, (t.setAt path key value).at? before = some inner ∧
      ChangedAt [k] ((t.at? before).getD emptyMap) inner := by
  induction before generalizing path t with
  | nil =>
    refine ⟨_, rfl, ?_⟩
    rw [at?, Option.getD_some]
    cases path with
    | nil =>
      obtain rfl : key = k := (List.cons.inj h).1
      exact changedAt_set t key value
    | cons first path =>
      obtain rfl : first = k := (List.cons.inj h).1
      exact changedAt_set t first _
  | cons first before ih =>
    cases path with
    | nil =>
      -- a way of one key has one level only
      have hnil : [] = before ++ k :: rest := (List.cons.inj h).2
      exact absurd hnil.symm (List.append_ne_nil_of_right_ne_nil _ (List.cons_ne_nil _ _))
    | cons first' path =>
      obtain ⟨rfl, hrest⟩ := List.cons.inj h
      obtain ⟨inner, hinner, hchanged⟩ := ih hrest (t.child first')
      refine ⟨inner, ?_, hchanged.of_fields (fields_at?_child t first' before)⟩
      rw [setAt, updateAt, at?, field?_updateChild_self, Option.bind_some]
      exact hinner

/-! ### Writes that change nothing -/

/-- Of two values that are written at one place, the second one stays. -/
theorem setAt_setAt (t : Tree) (path : List String) (key : String) (value value' : Tree) :
    (t.setAt path key value).setAt path key value' = t.setAt path key value' := by
  refine (updateAt_updateAt (fun _ _ => rfl) _ t path).trans ?_
  exact congrArg (t.updateAt · path) (funext fun s => set_set s key value value')

/-- Setting a key to the value that it has changes nothing. -/
theorem set_of_field? (h : t.field? key = some value) : t.set key value = t := by
  cases t with
  | map m => exact congrArg map (OrderedMap.insert_of_get? h)
  | seq items => cases h
  | scalar v => cases h

/-- Only maps lead on along keys. -/
theorem toMap_of_at? (h : t.at? (path ++ [key]) = some value) : t.toMap = t := by
  cases t with
  | map m => rfl
  | seq items => cases path <;> cases h
  | scalar v => cases path <;> cases h

/-- A value that is written where it stands already changes nothing. -/
theorem setAt_of_at? (h : t.at? (path ++ [key]) = some value) : t.setAt path key value = t := by
  induction path generalizing t with
  | nil =>
    obtain ⟨inner, hfield, hinner⟩ := Option.bind_eq_some_iff.mp h
    obtain rfl : inner = value := Option.some.inj hinner
    exact set_of_field? hfield
  | cons first path ih =>
    obtain ⟨inner, hfield, hinner⟩ := Option.bind_eq_some_iff.mp h
    rw [setAt, updateAt, updateChild, child_of_field? hfield, toMap_of_at? hinner]
    exact (congrArg (t.set first) (ih hinner)).trans (set_of_field? hfield)

/-- **Reading and writing along paths obey the laws of a lens.** What has been written is read.
Paths that branch off the way lead where they led before, and at every level of the way the keys
keep their places and a new one comes last. The second of two writes at one place stays, and
writing what is read changes nothing. -/
theorem setAt_lens (t : Tree) (path : List String) (key : String) (value : Tree) :
    (path.foldl Place.enter ⟨t, []⟩).set key value = t.setAt path key value ∧
      (t.setAt path key value).at? (path ++ [key]) = some value ∧
      (∀ q, ¬ q <+: path ++ [key] → ¬ path ++ [key] <+: q →
        (t.setAt path key value).at? q = t.at? q) ∧
      (∀ before k rest, path ++ [key] = before ++ k :: rest →
        ∃ inner, (t.setAt path key value).at? before = some inner ∧
          ChangedAt [k] ((t.at? before).getD emptyMap) inner) ∧
      (∀ value', (t.setAt path key value).setAt path key value' = t.setAt path key value') ∧
      (t.at? (path ++ [key]) = some value → t.setAt path key value = t) :=
  ⟨foldl_enter_set t path key value, at?_setAt t path key value,
    fun _ hq hpath => at?_setAt_of_apart hq hpath t value,
    fun _ _ _ h => changedAt_setAt h t value, setAt_setAt t path key value, setAt_of_at?⟩

end ModelGraph.Tree
