import ModelGraph.Proofs.OrderedMap
import ModelGraph.Proofs.Tree.Shape
import ModelGraph.Proofs.Tree.Storable
import ModelGraph.Tree.Merge

/-!
# Laws of merging

The entries of the second map are merged into the first one after the other. As no key comes twice
among them, each meets the value that the first map has for its key, and so the merged map can be
told by its keys and their values.

- `keys_mergeEntries`, `get?_mergeEntries`: the merged map.
- `merge_emptyMap`: nothing is changed by merging into the map without entries.
- `Overlay`: a tree laid over another one, level by level. `overlay_merge` and `Overlay.eq_merge`
  say that this is what merging does.
- `Overlay.again`, `Overlay.along?`: laying a tree over another one twice, and what is found then.
- `merge_overlays`: what this means for merging.
-/

namespace ModelGraph.Tree

/-! ## Entries -/

variable {entries : List (String × Tree)} (h : (entries.map Prod.fst).Nodup)

include h

/-- Keys of the first map keep their places, and new keys follow in the order of the second. -/
theorem keys_mergeEntries (target : OrderedMap Tree) :
    (mergeEntries target entries).keys =
      target.keys ++ (entries.map Prod.fst).filter (· ∉ target.keys) := by
  rw [mergeEntries_eq_foldl]
  exact OrderedMap.keys_foldl (fun m e => OrderedMap.keys_insert m e.1 _) h target

/-- A key of the second map has the merged value, and any other key that of the first. -/
theorem get?_mergeEntries (target : OrderedMap Tree) (key : String) :
    (mergeEntries target entries).get? key =
      ((entries.lookup key).map (mergeField (target.get? key))).or (target.get? key) := by
  rw [mergeEntries_eq_foldl]
  refine OrderedMap.get?_foldl (fun m e k => ?_) h target key
  rw [OrderedMap.get?_insert]
  by_cases hk : k = e.1
  · rw [if_pos hk, if_pos hk, hk]
  · rw [if_neg hk, if_neg hk]

/-- Entries that are merged into the map without entries stay as they are. -/
theorem mergeEntries_empty : mergeEntries OrderedMap.empty entries = ⟨entries⟩ := by
  have hkeys : (mergeEntries OrderedMap.empty entries).keys = entries.map Prod.fst := by
    rw [keys_mergeEntries h, OrderedMap.keys_empty]
    simp
  -- both maps have the same keys, and no key twice
  have hdistinct : (mergeEntries OrderedMap.empty entries).Distinct := by
    unfold OrderedMap.Distinct
    rw [hkeys]
    exact h
  apply hdistinct.ext hkeys
  intro key
  -- no value of the entries meets another one
  rw [get?_mergeEntries h, OrderedMap.get?_empty, Option.or_none, funext mergeField_none,
    Option.map_id']
  rfl

omit h

/-! ## Trees -/

/-- Any tree is what it was after it has been merged into the map without entries. -/
theorem merge_emptyMap {t : Tree} (h : t.DistinctKeys) : merge emptyMap t = t := by
  match t with
  | scalar v => rw [merge]; simp
  | seq items => rw [merge]; simp
  | map ⟨entries⟩ =>
    rw [emptyMap, merge]
    exact congrArg map (mergeEntries_empty (distinctKeys_map.mp h).1)

/-! ## Overlays -/

/-- A tree laid over another one. The relation says what the merged tree looks like, level by level,
and nothing about how it is made: which keys it has and in which order, and where each of its values
comes from. -/
inductive Overlay : Tree → Tree → Tree → Prop where
  /-- Where not both are maps, the second one hides the first. -/
  | hidden {t s : Tree} (h : t.map? = none ∨ s.map? = none) : Overlay t s s
  /-- Of two maps the keys of the first one come first, and then those that the second one has
  alone. A key that one of them has alone has its value there, and where both have the key, the
  second value is laid over the first. -/
  | maps {m n r : OrderedMap Tree} (keys : r.keys = m.keys ++ n.keys.filter (· ∉ m.keys))
      (first : ∀ key, n.get? key = none → r.get? key = m.get? key)
      (second : ∀ key, m.get? key = none → r.get? key = n.get? key)
      (both : ∀ key x y z, m.get? key = some x → n.get? key = some y → r.get? key = some z →
        Overlay x y z) :
      Overlay (map m) (map n) (map r)

variable {t s r : Tree}

/-- A tree laid over itself is what it was. -/
theorem overlay_self (t : Tree) : Overlay t t t := by
  induction t using Tree.induct with
  | scalar v => exact .hidden (.inl rfl)
  | seq items => exact .hidden (.inl rfl)
  | map entries ih =>
    refine .maps ?_ (fun _ _ => rfl) (fun _ _ => rfl) fun key x y z hx hy hz => ?_
    -- the second map has no keys of its own
    · have hnone :
          (OrderedMap.keys ⟨entries⟩).filter (· ∉ OrderedMap.keys ⟨entries⟩) = [] := by simp
      rw [hnone, List.append_nil]
    · obtain rfl : x = y := Option.some.inj (hx.symm.trans hy)
      obtain rfl : x = z := Option.some.inj (hx.symm.trans hz)
      obtain ⟨_, heq, hmem⟩ := mem_of_field? (t := .map ⟨entries⟩) hx
      cases heq
      exact ih _ hmem

namespace Overlay

/-- A key that one of the maps has is a key of the overlay. -/
theorem exists_get? {m n r : OrderedMap Tree}
    (keys : r.keys = m.keys ++ n.keys.filter (· ∉ m.keys)) {key : String} {value : Tree}
    (h : m.get? key = some value) : ∃ z, r.get? key = some z := by
  rw [← OrderedMap.mem_keys_iff, keys]
  exact List.mem_append_left _ ((OrderedMap.mem_keys_iff m key).mpr ⟨value, h⟩)

/-- Laid over the overlay once more, a tree changes nothing: it has no key that the overlay has not,
and under each of its keys it meets itself or an overlay by itself. -/
theorem again (h : Overlay t s r) : Overlay r s r := by
  induction h with
  | hidden => exact overlay_self _
  | @maps m n r keys first second both ih =>
    have hsub : ∀ key ∈ n.keys, key ∈ r.keys := fun key hkey => by
      rw [keys, List.mem_append, List.mem_filter]
      by_cases hm : key ∈ m.keys
      · exact .inl hm
      · exact .inr ⟨hkey, decide_eq_true hm⟩
    refine .maps ?_ (fun _ _ => rfl) (fun key hr => ?_) fun key x y z hx hy hz => ?_
    · have hnone : n.keys.filter (· ∉ r.keys) = [] :=
        List.filter_eq_nil_iff.mpr fun key hkey => by simp [hsub key hkey]
      rw [hnone, List.append_nil]
    · -- a key that is not in the overlay is in neither map
      rw [hr, eq_comm, OrderedMap.get?_eq_none_iff]
      exact fun hkey => (OrderedMap.get?_eq_none_iff r key).mp hr (hsub key hkey)
    · obtain rfl : x = z := Option.some.inj (hx.symm.trans hz)
      cases hm : m.get? key with
      | none =>
        obtain rfl : x = y := Option.some.inj (hx.symm.trans ((second key hm).trans hy))
        exact overlay_self x
      | some old => exact ih key old y x hm hy hx

/-- What stands at the end of a path in the upper tree stands there in the overlay, unless it is a
map. Of a map only the keys are sure to be there, as the lower tree may have more. -/
theorem along? (h : Overlay t s r) {path : List Step} {v : Tree} (hs : s.along? path = some v)
    (hv : v.map? = none) : r.along? path = some v := by
  induction path generalizing t s r with
  | nil =>
    cases h with
    | hidden => exact hs
    | maps =>
      cases hs
      cases hv
  | cons step rest ih =>
    cases h with
    | hidden => exact hs
    | @maps m n r keys first second both =>
      obtain ⟨y, hy, hrest⟩ := Option.bind_eq_some_iff.mp hs
      cases step with
      | position index => cases hy
      | key name =>
        cases hm : m.get? name with
        | none =>
          have hr : r.get? name = some y := (second name hm).trans hy
          exact Option.bind_eq_some_iff.mpr ⟨y, hr, hrest⟩
        | some x =>
          obtain ⟨z, hz⟩ := exists_get? keys hm
          -- both have the key, so the path goes on in the overlay of both values
          exact Option.bind_eq_some_iff.mpr ⟨z, hz, ih (both name x y z hm hy hz) hrest⟩

/-- An overlay can be kept in a text if both trees can: each of its values is one of theirs or an
overlay of two of them. -/
theorem storable {p : Scalar → Prop} (h : Overlay t s r) (ht : t.Storable p) (hs : s.Storable p) :
    r.Storable p := by
  induction h with
  | hidden => exact hs
  | @maps m n r keys first second both ih =>
    obtain ⟨hm, hmvalues⟩ := storable_map_iff.mp ht
    obtain ⟨hn, hnvalues⟩ := storable_map_iff.mp hs
    refine storable_map_iff.mpr ⟨?_, fun key z hz => ?_⟩
    · -- the keys of the second map that come last are not among those of the first
      rw [OrderedMap.Distinct, keys]
      refine List.Nodup.append hm (hn.filter _) fun key hkey hnew => ?_
      exact of_decide_eq_true (List.mem_filter.mp hnew).2 hkey
    -- each value comes from the second map alone, from the first alone, or from both
    · cases hx : m.get? key with
      | none => exact hnvalues key z ((second key hx).symm.trans hz)
      | some x =>
        cases hy : n.get? key with
        | none => exact hmvalues key z ((first key hy).symm.trans hz)
        | some y => exact ih key x y z hx hy hz (hmvalues key x hx) (hnvalues key y hy)

/-- There is one overlay only, which merging makes. Order and values of its keys are all that tells
a map, and at each key the induction gives the value. -/
theorem eq_merge (h : Overlay t s r) (ht : t.DistinctKeys) (hs : s.DistinctKeys) :
    r = merge t s := by
  induction h with
  | hidden hnone => exact (merge_eq_right hnone).symm
  | @maps m n r keys first second both ih =>
    have ht' := storable_true_iff.mpr ht
    have hs' := storable_true_iff.mpr hs
    have hn : n.Distinct := (storable_map_iff.mp hs').1
    have hr : r.Distinct :=
      (storable_map_iff.mp (storable (.maps keys first second both) ht' hs')).1
    rw [merge]
    -- the keys are the same in the same order, so the values are left
    refine congrArg map (hr.ext (keys.trans (keys_mergeEntries hn m).symm) fun key => ?_)
    rw [get?_mergeEntries hn m key]
    show _ = ((n.get? key).map _).or _
    -- the key is in the first map alone, in the second alone, or in both
    cases hy : n.get? key with
    | none => exact first key hy
    | some y =>
      cases hx : m.get? key with
      | none => rw [second key hx, hy, Option.map_some, mergeField_none, Option.some_or]
      | some x =>
        obtain ⟨z, hz⟩ := exists_get? keys hx
        have hvalue := ih key x y z hx hy hz (storable_true_iff.mp (ht'.get? hx))
          (storable_true_iff.mp (hs'.get? hy))
        rw [hz, hvalue, Option.map_some, mergeField_some, Option.some_or]

end Overlay

/-- Merging lays the second tree over the first. One rule of `Overlay` says what each case of a
merge gives. -/
theorem overlay_merge (t : Tree) (hs : s.DistinctKeys) : Overlay t s (merge t s) := by
  -- on the upper tree, as its entries are those that the merge goes through
  induction s using Tree.induct generalizing t with
  | scalar v =>
    rw [merge_eq_right (.inr rfl)]
    exact .hidden (.inr rfl)
  | seq items =>
    rw [merge_eq_right (.inr rfl)]
    exact .hidden (.inr rfl)
  | map entries ih =>
    obtain ⟨hkeys, hvalues⟩ := distinctKeys_map.mp hs
    cases t with
    | scalar v =>
      rw [merge_eq_right (.inl rfl)]
      exact .hidden (.inl rfl)
    | seq items =>
      rw [merge_eq_right (.inl rfl)]
      exact .hidden (.inl rfl)
    | map m =>
      rw [merge]
      refine .maps (keys_mergeEntries hkeys m) (fun key hn => ?_) (fun key hm => ?_)
        fun key x y z hx hy hz => ?_
      · rw [get?_mergeEntries hkeys, show entries.lookup key = none from hn]
        rfl
      · rw [get?_mergeEntries hkeys, hm, Option.or_none, funext mergeField_none, Option.map_id']
        rfl
      · have hmem : (key, y) ∈ entries := (OrderedMap.lookup_eq_some_iff_mem hkeys key y).mp hy
        rw [get?_mergeEntries hkeys, hx, show entries.lookup key = some y from hy, Option.map_some,
          Option.some_or, mergeField_some] at hz
        cases hz
        exact ih (key, y) hmem x (hvalues (key, y) hmem)

/-- **Merging lays a tree over another one**, which can be done in one way only. Done once more it
changes nothing, and over the map without entries it gives the upper tree. Each leaf and each
sequence of the upper tree is found where it was. -/
theorem merge_overlays (ht : t.DistinctKeys) (hs : s.DistinctKeys) :
    (∀ r, Overlay t s r ↔ r = merge t s) ∧ merge (merge t s) s = merge t s ∧
      merge emptyMap s = s ∧
      ∀ path v, s.along? path = some v → v.map? = none → (merge t s).along? path = some v := by
  have hmerge := overlay_merge t hs
  have hdistinct : (merge t s).DistinctKeys :=
    (hmerge.storable (storable_true_iff.mpr ht) (storable_true_iff.mpr hs)).distinct
  refine ⟨fun r => ⟨fun h => h.eq_merge ht hs, fun h => h ▸ hmerge⟩, ?_, merge_emptyMap hs,
    fun path v hv hleaf => hmerge.along? hv hleaf⟩
  -- the merged tree is its own overlay, and there is no other one
  exact (hmerge.again.eq_merge hdistinct hs).symm

/-- Settings with a map, a leaf and a sequence. -/
def ampSettings : Tree :=
  .map ⟨[("gain", .map ⟨[("low", .scalar (.int 1)), ("high", .scalar (.int 2))]⟩),
    ("unit", .text "dB"), ("ports", .seq [.text "in"])]⟩

/-- Changes to some of them, each with a value of another kind than before, and a new key. -/
def ampChanges : Tree :=
  .map ⟨[("rate", .map ⟨[("max", .scalar (.int 4))]⟩),
    ("gain", .map ⟨[("high", .seq [.text "auto", .bool true])]⟩),
    ("ports", .map ⟨[("out", .seq [])]⟩)]⟩

/-- The settings with the changes. -/
def ampMerged : Tree :=
  .map ⟨[("gain", .map ⟨[("low", .scalar (.int 1)), ("high", .seq [.text "auto", .bool true])]⟩),
    ("unit", .text "dB"), ("ports", .map ⟨[("out", .seq [])]⟩),
    ("rate", .map ⟨[("max", .scalar (.int 4))]⟩)]⟩

/-- The changes are merged into the settings: new values hide old ones of any other kind, maps are
merged in turn, and the new key comes last. -/
theorem ampSettings_merged : ampSettings.DistinctKeys ∧ ampChanges.DistinctKeys ∧
    merge ampSettings ampChanges = ampMerged ∧ Overlay ampSettings ampChanges ampMerged ∧
    merge ampMerged ampChanges = ampMerged ∧ merge emptyMap ampChanges = ampChanges ∧
    ampMerged.along? [.key "gain", .key "high", .position 1] = some (.bool true) := by
  have hsettings : ampSettings.DistinctKeys := by simp [ampSettings, text]
  have hchanges : ampChanges.DistinctKeys := by simp [ampChanges, text, bool]
  have hmerged : merge ampSettings ampChanges = ampMerged := by decide +kernel
  obtain ⟨hoverlay, hagain, hempty, hfound⟩ := merge_overlays hsettings hchanges
  rw [hmerged] at hagain hfound
  refine ⟨hsettings, hchanges, hmerged, (hoverlay _).mpr hmerged.symm, hagain, hempty, ?_⟩
  exact hfound [.key "gain", .key "high", .position 1] (.bool true) rfl rfl

end ModelGraph.Tree
