import ModelGraph.Proofs.OrderedMap
import ModelGraph.Proofs.Tree.Shape
import ModelGraph.Proofs.Tree.Trim
import ModelGraph.Tree.Path

/-!
# Changing trees that are kept in texts

A tree that can be kept in a text can still be kept in one after it has been trimmed, or after
entries of a map have been set, added or erased: keys stay distinct, and no leaf comes in that was
not asked about.

- `Storable.trim`: trimming.
- `Storable.insert`, `Storable.insertIfNew`, `Storable.erase`: entries of a map.
- `Storable.field?`, `height_lt_of_field?`: what is kept in a map can be kept by itself.
- `Fits`: a tree that can be kept in a text and is not too high to be read again.
-/

namespace ModelGraph.Tree

variable {p : Scalar → Prop}

/-- Where nothing is asked of leaves, keys alone matter. -/
theorem storable_true_iff {t : Tree} : t.Storable (fun _ => True) ↔ t.DistinctKeys := by
  refine ⟨Storable.distinct, fun h => ⟨?_, h⟩⟩
  clear h
  induction t using Tree.induct with
  | scalar v => exact leavesAll_scalar.mpr trivial
  | seq items ih => exact leavesAll_seq.mpr ih
  | map entries ih => exact leavesAll_map.mpr ih

/-! ## Trimming -/

/-- Trimming drops entries, and with them their keys. -/
theorem keys_trimEntries_sublist (entries : List (String × Tree)) :
    ((trimEntries entries).map Prod.fst).Sublist (entries.map Prod.fst) := by
  induction entries with
  | nil => exact List.nil_sublist _
  | cons e rest ih =>
    obtain ⟨key, value⟩ := e
    rw [trimEntries]
    cases value.trimChild with
    | none => exact ih.cons key
    | some kept => exact ih.cons_cons key

/-- Trimming leaves a tree that can be kept in a text one that can: it makes no leaf and no key that
was not there. -/
theorem Storable.trim {t : Tree} (h : t.Storable p) : t.trim.Storable p := by
  induction t using Tree.induct with
  | scalar v =>
    rw [Tree.trim]
    exact h
  | seq items ih =>
    rw [Tree.trim, trimItems_eq_filterMap, storable_seq]
    -- each element that is kept is a trimmed one
    intro kept hkept
    obtain ⟨item, hitem, heq⟩ := List.mem_filterMap.mp hkept
    rw [eq_trim_of_trimChild heq]
    exact ih item hitem (storable_seq.mp h item hitem)
  | map entries ih =>
    obtain ⟨hkeys, hvalues⟩ := storable_map.mp h
    rw [Tree.trim, storable_map]
    -- trimming drops entries, so no key comes twice that did not before
    refine ⟨hkeys.sublist (keys_trimEntries_sublist entries), fun e he => ?_⟩
    rw [trimEntries_eq_filterMap] at he
    obtain ⟨x, hx, hmap⟩ := List.mem_filterMap.mp he
    obtain ⟨kept, hkept, rfl⟩ := Option.map_eq_some_iff.mp hmap
    rw [eq_trim_of_trimChild hkept]
    exact ih x hx (hvalues x hx)

/-! ## Entries -/

/-- The map without entries can be kept in every text. -/
theorem storable_emptyMap : emptyMap.Storable p :=
  storable_map.mpr ⟨List.nodup_nil, nofun⟩

/-- What is asked of a map, said of its entries. -/
theorem storable_entries {m : OrderedMap Tree} :
    Storable p (.map m) ↔ m.Distinct ∧ ∀ e ∈ m.entries, e.2.Storable p :=
  storable_map

/-- What is asked of a map, said of the values that are found in it. -/
theorem storable_map_iff {m : OrderedMap Tree} :
    Storable p (.map m) ↔ m.Distinct ∧ ∀ key value, m.get? key = some value → value.Storable p := by
  refine storable_entries.trans ?_
  refine and_congr_right fun hkeys => ⟨fun h key value hget => ?_, fun h e he => ?_⟩
  · exact h _ ((OrderedMap.lookup_eq_some_iff_mem hkeys key value).mp hget)
  · exact h e.1 e.2 ((OrderedMap.lookup_eq_some_iff_mem hkeys e.1 e.2).mpr he)

/-- A value of a map can be kept in a text if the map can. -/
theorem Storable.get? {m : OrderedMap Tree} (h : Storable p (.map m)) {key : String} {value : Tree}
    (hget : m.get? key = some value) : value.Storable p :=
  (storable_map_iff.mp h).2 key value hget

/-- Setting a key to a value that can be kept in a text leaves a map that can. -/
theorem Storable.insert {m : OrderedMap Tree} (h : Storable p (.map m)) (key : String)
    {value : Tree}
    (hvalue : value.Storable p) : Storable p (.map (m.insert key value)) := by
  refine storable_map_iff.mpr ⟨(storable_map_iff.mp h).1.insert key value, fun k v hget => ?_⟩
  rw [OrderedMap.get?_insert] at hget
  split at hget
  · cases hget
    exact hvalue
  · exact h.get? hget

/-- The height of a map, said of the values that are found in it. -/
theorem height_map_le_iff {m : OrderedMap Tree} (h : m.Distinct) {levels : Nat} :
    height (.map m) ≤ levels + 1 ↔
      ∀ key value, m.get? key = some value → value.height ≤ levels := by
  refine height_map_le.trans ⟨fun hentries key value hget => ?_, fun hvalues e he => ?_⟩
  · exact hentries _ ((OrderedMap.lookup_eq_some_iff_mem h key value).mp hget)
  · exact hvalues e.1 e.2 ((OrderedMap.lookup_eq_some_iff_mem h e.1 e.2).mpr he)

/-- A value that is set makes a map no higher than it has to. -/
theorem height_insert_le {m : OrderedMap Tree} (h : m.Distinct) {levels : Nat}
    (hm : height (.map m) ≤ levels + 1) (key : String) {value : Tree}
    (hvalue : value.height ≤ levels) :
    height (.map (m.insert key value)) ≤ levels + 1 := by
  refine (height_map_le_iff (h.insert key value)).mpr fun k v hget => ?_
  rw [OrderedMap.get?_insert] at hget
  split at hget
  · cases hget
    exact hvalue
  · exact (height_map_le_iff h).mp hm k v hget

/-- The same where the key is set only if it is new. -/
theorem Storable.insertIfNew {m : OrderedMap Tree} (h : Storable p (.map m)) (key : String)
    {value : Tree} (hvalue : value.Storable p) : Storable p (.map (m.insertIfNew key value)) := by
  unfold OrderedMap.insertIfNew
  split
  · exact h
  · rename_i hnew
    -- a new key is set at the end in either way
    have hkey : key ∉ m.keys := fun hmem => hnew ((OrderedMap.contains_iff m key).mpr hmem)
    rw [← OrderedMap.insert_of_new hkey]
    exact h.insert key hvalue

/-- Erasing a key leaves a map that can be kept in a text. -/
theorem Storable.erase {m : OrderedMap Tree} (h : Storable p (.map m)) (key : String) :
    Storable p (.map (m.erase key)) := by
  obtain ⟨hkeys, hvalues⟩ := storable_entries.mp h
  refine storable_entries.mpr ⟨hkeys.erase key, fun e he => ?_⟩
  exact hvalues e ((m.entries_erase_sublist key).subset he)

/-- A map whose values are made from others can be kept in a text if each of them can. -/
theorem storable_mapValues {α : Type} {m : OrderedMap α} {f : String → α → Tree} (h : m.Distinct)
    (hvalues : ∀ key a, m.get? key = some a → (f key a).Storable p) :
    Storable p (.map (m.mapValues f)) := by
  refine storable_map_iff.mpr ⟨?_, fun key value hget => ?_⟩
  · rw [OrderedMap.Distinct, OrderedMap.keys_mapValues]
    exact h
  · rw [OrderedMap.get?_mapValues] at hget
    obtain ⟨a, ha, rfl⟩ := Option.map_eq_some_iff.mp hget
    exact hvalues key a ha

/-- The entries of any tree can be kept in a text if the tree can; there are none unless it is a
map. -/
theorem Storable.fields {t : Tree} (h : t.Storable p) : Storable p (.map t.fields) := by
  cases t with
  | map m => exact h
  | seq items => exact storable_emptyMap
  | scalar v => exact storable_emptyMap

/-! ## Fields -/

/-- What is found under a key of a tree can be kept in a text if the tree can. -/
theorem Storable.field? {t value : Tree} (h : t.Storable p) {key : String}
    (hget : t.field? key = some value) : value.Storable p := by
  cases t with
  | map m => exact Storable.get? h hget
  | seq items => cases hget
  | scalar v => cases hget

/-- A value of a map is less high than the map. -/
theorem height_lt_of_field? {t value : Tree} {key : String} (h : t.field? key = some value) :
    value.height < t.height := by
  obtain ⟨entries, rfl, hmem⟩ := mem_of_field? h
  -- a map has some height, and its values have room one level below
  obtain ⟨levels, hlevels⟩ := Nat.exists_eq_add_one_of_ne_zero
    (Nat.ne_of_gt (height_map_pos entries))
  have hvalue : value.height ≤ levels := height_map_le.mp (Nat.le_of_eq hlevels) _ hmem
  omega

/-! ## Room -/

/-- A tree that can be kept in a text and has room in some levels. Readers refuse trees that are
nested too deep, so this is what it takes to be read again. -/
structure Fits (p : Scalar → Prop) (levels : Nat) (t : Tree) : Prop where
  storable : t.Storable p
  height : t.height ≤ levels

variable {levels : Nat} {t value : Tree} {key : String}

/-- A leaf needs no levels. -/
theorem fits_scalar {v : Scalar} (h : p v) : Fits p levels (.scalar v) :=
  ⟨storable_scalar.mpr h, by simp⟩

/-- The map without entries needs one level. -/
theorem fits_emptyMap : Fits p (levels + 1) emptyMap :=
  ⟨storable_emptyMap, height_map_le.mpr nofun⟩

/-- A sequence has room if its elements have it one level down. -/
theorem fits_seq {items : List Tree} :
    Fits p (levels + 1) (.seq items) ↔ ∀ t ∈ items, Fits p levels t := by
  constructor
  · exact fun h t ht => ⟨storable_seq.mp h.storable t ht, height_seq_le.mp h.height t ht⟩
  · exact fun h => ⟨storable_seq.mpr fun t ht => (h t ht).storable,
      height_seq_le.mpr fun t ht => (h t ht).height⟩

/-- A key may be set to whatever has room one level down. -/
theorem Fits.insert {m : OrderedMap Tree} (h : Fits p (levels + 1) (.map m)) (key : String)
    (hvalue : Fits p levels value) : Fits p (levels + 1) (.map (m.insert key value)) :=
  ⟨h.storable.insert key hvalue.storable,
    height_insert_le (storable_entries.mp h.storable).1 h.height key hvalue.height⟩

/-- The entries of any tree have room where the tree has. -/
theorem Fits.fields (h : Fits p (levels + 1) t) : Fits p (levels + 1) (.map t.fields) := by
  cases t with
  | map m => exact h
  | seq items => exact fits_emptyMap
  | scalar v => exact fits_emptyMap

/-- What is found under a key needs one level less. -/
theorem Fits.field? (h : Fits p (levels + 1) t) (hget : t.field? key = some value) :
    Fits p levels value := by
  have hlower := height_lt_of_field? hget
  have hheight := h.height
  exact ⟨h.storable.field? hget, by omega⟩

/-- A key of any tree may be set to whatever has room one level down. -/
theorem Fits.set (h : Fits p (levels + 1) t) (key : String) (hvalue : Fits p levels value) :
    Fits p (levels + 1) (t.set key value) :=
  h.fields.insert key hvalue

/-- The map below a key, which may be made for it, has room one level down if
there are two levels. -/
theorem Fits.child (h : Fits p (levels + 2) t) (key : String) :
    Fits p (levels + 1) (t.child key) := by
  unfold Tree.child
  cases hget : t.field? key with
  | none => exact fits_emptyMap
  | some inner => exact (h.field? hget).fields

/-- What is found at the end of a path needs as many levels less as the path has keys. -/
theorem Fits.at? {path : List String} (h : Fits p (levels + path.length) t)
    (hget : t.at? path = some value) : Fits p levels value := by
  induction path generalizing t with
  | nil =>
    cases hget
    exact h
  | cons key rest ih =>
    obtain ⟨inner, hfield, hinner⟩ := Option.bind_eq_some_iff.mp hget
    exact ih (h.field? hfield) hinner

/-- More levels are room as well. -/
theorem Fits.mono {more : Nat} (h : Fits p levels t) (hle : levels ≤ more) : Fits p more t :=
  ⟨h.storable, Nat.le_trans h.height hle⟩

/-- A tree fits where less is asked of its leaves. -/
theorem Fits.imp {q : Scalar → Prop} (hpq : ∀ v, p v → q v) (h : Fits p levels t) :
    Fits q levels t :=
  ⟨h.storable.imp hpq, h.height⟩

end ModelGraph.Tree
