import ModelGraph.Proofs.Descriptor.Storable
import ModelGraph.Proofs.Tree.NormalForm

/-!
# Configurations of tasks

What the data of a node becomes as the configuration of a task. The properties that have a value go
to the end, the inner configuration fills in the keys that are still free, and the description goes.
Each of these steps is told by the keys and their values, and so is the result.

- `valuedProperties`, `innerConfiguration`: the parts of the data that are changed.
- `get?_keepValuedProperties`, `get?_spreadConfiguration` and their like for keys: the steps.
- `get?_taskConfig`, `keys_taskConfig`, `taskConfig_tidy`: the configuration of a task.
- `taskConfig_normalized`: nothing is lost, and nothing is overwritten.
-/

namespace ModelGraph

/-! ## Parts of the data -/

/-- The properties that have a value, none if there is no sequence of properties. What counts is
that the key is there, since blank values have been trimmed away before. -/
def valuedProperties (m : OrderedMap Tree) : List Tree :=
  (((m.get? "properties").bind Tree.seq?).getD []).filter (·.hasField "Value")

/-- The key of the properties, if some of them have a value. -/
def valuedKey (m : OrderedMap Tree) : List String :=
  if valuedProperties m = [] then [] else ["properties"]

/-- The entries of the inner configuration, none if it is not a map. They go into the configuration
of the task itself. -/
def innerConfiguration (m : OrderedMap Tree) : OrderedMap Tree :=
  ((m.get? "configuration").map Tree.fields).getD OrderedMap.empty

/-- The keys of data that mean something to a task. -/
def specialKeys : List String := ["properties", "configuration", "description"]

/-- Keeping the valued properties takes their key away and puts it back at the end, if there are
any. -/
theorem keepValuedProperties_eq (m : OrderedMap Tree) :
    keepValuedProperties m =
      if valuedProperties m = [] then m.erase "properties"
      else (m.erase "properties").insert "properties" (.seq (valuedProperties m)) := by
  unfold keepValuedProperties valuedProperties OrderedMap.take
  cases hget : m.get? "properties" with
  | none =>
    -- there is no list, so taking it out changes nothing
    have hnew : "properties" ∉ m.keys := (m.get?_eq_none_iff _).mp hget
    simp [OrderedMap.erase_of_new hnew]
  | some properties =>
    simp only [Option.bind_some]
    cases (properties.seq?.getD []).filter (·.hasField "Value") <;> rfl

/-- Spreading the inner configuration takes its key away and adds its entries one by one. -/
theorem spreadConfiguration_eq (m : OrderedMap Tree) :
    spreadConfiguration m =
      (innerConfiguration m).entries.foldl (fun rest e => rest.insertIfNew e.1 e.2)
        (m.erase "configuration") := by
  unfold spreadConfiguration innerConfiguration OrderedMap.take
  cases hget : m.get? "configuration" with
  | none =>
    have hnew : "configuration" ∉ m.keys := (m.get?_eq_none_iff _).mp hget
    exact (OrderedMap.erase_of_new hnew).symm
  | some configuration => rfl

/-! ## Steps -/

section Steps

variable {m : OrderedMap Tree} (h : (Tree.map m).DistinctKeys)

include h

/-- No key of the map comes twice. -/
theorem Tree.DistinctKeys.distinct : m.Distinct := (Tree.distinctKeys_map.mp h).1

/-- Neither does one of the inner configuration. -/
theorem innerConfiguration_distinct : (innerConfiguration m).Distinct := by
  unfold innerConfiguration
  cases hget : m.get? "configuration" with
  | none => exact OrderedMap.distinct_empty
  | some configuration =>
    have hfields := ((Tree.storable_true_iff.mpr h).get? hget).fields
    exact (Tree.storable_entries.mp hfields).1

/-- Keeping the valued properties repeats no key. -/
theorem keepValuedProperties_distinctKeys : (Tree.map (keepValuedProperties m)).DistinctKeys := by
  apply Tree.storable_true_iff.mp
  apply keepValuedProperties_storable
  exact Tree.storable_true_iff.mpr h

/-- Spreading the inner configuration repeats no key. -/
theorem spreadConfiguration_distinctKeys : (Tree.map (spreadConfiguration m)).DistinctKeys := by
  apply Tree.storable_true_iff.mp
  apply spreadConfiguration_storable
  exact Tree.storable_true_iff.mpr h

/-- The properties become those that have a value, and every other key keeps its value. -/
theorem get?_keepValuedProperties (key : String) :
    (keepValuedProperties m).get? key =
      if key = "properties" then
        if valuedProperties m = [] then none else some (.seq (valuedProperties m))
      else m.get? key := by
  rw [keepValuedProperties_eq]
  -- the key of the properties is gone, unless it is put back with those that are kept
  by_cases hkept : valuedProperties m = []
  · simp only [hkept, if_true, h.distinct.get?_erase]
  · simp only [hkept, if_false, OrderedMap.get?_insert, h.distinct.get?_erase]
    by_cases hkey : key = "properties"
    · rw [if_pos hkey, if_pos hkey]
    · rw [if_neg hkey, if_neg hkey, if_neg hkey]

/-- The key of the properties comes last, if there are any left. -/
theorem keys_keepValuedProperties :
    (keepValuedProperties m).keys = m.keys.filter (· ≠ "properties") ++ valuedKey m := by
  have herase := h.distinct.keys_erase_eq_filter "properties"
  rw [keepValuedProperties_eq, valuedKey]
  by_cases hkept : valuedProperties m = []
  · simp only [hkept, if_true, herase, List.append_nil]
  · -- the key has just been erased, so it comes last
    simp [hkept, OrderedMap.keys_insert, herase]

/-- The inner configuration is not touched by what happens to the properties, not even by the
properties inside of it. -/
theorem innerConfiguration_keepValuedProperties :
    innerConfiguration (keepValuedProperties m) = innerConfiguration m := by
  unfold innerConfiguration
  rw [get?_keepValuedProperties h, if_neg (by decide)]

/-- A key that has a value keeps it, and any other key has that of the inner configuration. -/
theorem get?_spreadConfiguration (key : String) :
    (spreadConfiguration m).get? key =
      (if key = "configuration" then none else m.get? key).or
        ((innerConfiguration m).get? key) := by
  have hfold : (spreadConfiguration m).get? key =
      (((innerConfiguration m).get? key).map (Option.getD ((m.erase "configuration").get? key))).or
        ((m.erase "configuration").get? key) := by
    rw [spreadConfiguration_eq]
    refine OrderedMap.get?_foldl (fun rest e k => ?_) (innerConfiguration_distinct h) _ key
    rw [OrderedMap.get?_insertIfNew]
    by_cases hk : k = e.1
    · rw [if_pos hk, if_pos hk, hk]
    · rw [if_neg hk, if_neg hk]
  rw [hfold, h.distinct.get?_erase]
  -- an old value wins, with or without a value in the inner configuration
  cases (innerConfiguration m).get? key <;>
    cases (if key = "configuration" then none else m.get? key) <;> rfl

/-- Keys of the inner configuration that are new come last, in their order. -/
theorem keys_spreadConfiguration :
    (spreadConfiguration m).keys = m.keys.filter (· ≠ "configuration") ++
      (innerConfiguration m).keys.filter (· ∉ m.keys.filter (· ≠ "configuration")) := by
  rw [spreadConfiguration_eq, ← h.distinct.keys_erase_eq_filter]
  apply OrderedMap.keys_foldl _ (innerConfiguration_distinct h)
  exact fun m e => m.keys_insertIfNew e.1 e.2

/-- The inner configuration of tidy data is tidy. -/
theorem innerConfiguration_tidy (htidy : (Tree.map m).Tidy) :
    (Tree.map (innerConfiguration m)).Tidy := by
  unfold innerConfiguration
  cases hget : m.get? "configuration" with
  | none => exact Tree.tidy_of_children nofun
  | some configuration => exact ((Tree.tidy_map_iff h.distinct).mp htidy _ _ hget).2.fields

/-- The properties of tidy data are tidy, because only elements are dropped and none is changed. -/
theorem valuedProperties_tidy (htidy : (Tree.map m).Tidy) :
    (Tree.seq (valuedProperties m)).Tidy := by
  apply Tree.tidy_of_children
  intro c hc
  obtain ⟨hitem, -⟩ := List.mem_filter.mp hc
  cases hget : m.get? "properties" with
  | none => simp [hget] at hitem
  | some properties =>
    have hproperties := ((Tree.tidy_map_iff h.distinct).mp htidy _ _ hget).2
    -- only a sequence has properties to keep
    cases properties with
    | seq items =>
      apply hproperties.child
      simpa [hget, Tree.seq?, Tree.children] using hitem
    | map _ => simp [hget, Tree.seq?] at hitem
    | scalar _ => simp [hget, Tree.seq?] at hitem

end Steps

/-! ## The configuration of a task -/

/-- Trimmed data has nothing void in it. -/
theorem trimmedFields_tidy (data : Option Tree) : (Tree.map (trimmedFields data)).Tidy := by
  cases data with
  | none => exact Tree.tidy_of_children nofun
  | some t => exact t.tidy_trim.fields

section Whole

variable {data : Option Tree} (h : ∀ t ∈ data, t.DistinctKeys)

include h

/-- Trimming repeats no key. -/
theorem trimmedFields_distinctKeys : (Tree.map (trimmedFields data)).DistinctKeys := by
  apply Tree.storable_true_iff.mp
  apply trimmedFields_storable
  exact fun t ht => Tree.storable_true_iff.mpr (h t ht)

/-- Neither does the configuration of a task. -/
theorem taskConfig_distinct : (taskConfig data).Distinct := by
  have hstorable := taskConfig_storable fun t ht => Tree.storable_true_iff.mpr (h t ht)
  exact (Tree.storable_entries.mp hstorable).1

/-- A key has its value from the data, where the properties are those that have a value, and
otherwise from the inner configuration. This is the whole of what the steps do, told key by key. -/
theorem get?_taskConfig (key : String) :
    (taskConfig data).get? key =
      if key = "description" then none
      else
        (if key = "configuration" then none
        else if key = "properties" then
          if valuedProperties (trimmedFields data) = [] then none
          else some (.seq (valuedProperties (trimmedFields data)))
        else (trimmedFields data).get? key).or
          ((innerConfiguration (trimmedFields data)).get? key) := by
  have hkeys := trimmedFields_distinctKeys h
  have hkept := keepValuedProperties_distinctKeys hkeys
  have hspread := spreadConfiguration_distinctKeys hkept
  -- the three steps from the last one to the first
  rw [taskConfig, hspread.distinct.get?_erase, get?_spreadConfiguration hkept,
    innerConfiguration_keepValuedProperties hkeys, get?_keepValuedProperties hkeys]

/-- The keys of the data come first, then that of the properties, and those of the inner
configuration that are new come last. -/
theorem keys_taskConfig :
    (taskConfig data).keys =
      (trimmedFields data).keys.filter (· ∉ specialKeys) ++ valuedKey (trimmedFields data) ++
        (innerConfiguration (trimmedFields data)).keys.filter fun key =>
          key ≠ "description" ∧ key ∉ (trimmedFields data).keys.filter (· ∉ specialKeys) ++
            valuedKey (trimmedFields data) := by
  have hkeys := trimmedFields_distinctKeys h
  have hkept := keepValuedProperties_distinctKeys hkeys
  have hspread := spreadConfiguration_distinctKeys hkept
  -- the special keys go one after the other, and the key of the properties is back before the last
  have hfirst : (((keepValuedProperties (trimmedFields data)).keys.filter
      (· ≠ "configuration")).filter (· ≠ "description")) =
        (trimmedFields data).keys.filter (· ∉ specialKeys) ++ valuedKey (trimmedFields data) := by
    rw [keys_keepValuedProperties hkeys, valuedKey]
    simp only [List.filter_append, List.filter_filter]
    refine congrArg₂ (· ++ ·) (List.filter_congr fun key _ => ?_) ?_
    · simp [specialKeys, Bool.and_comm, Bool.and_left_comm, Bool.and_assoc]
    · split <;> rfl
  rw [taskConfig, hspread.distinct.keys_erase_eq_filter, keys_spreadConfiguration hkept,
    innerConfiguration_keepValuedProperties hkeys, List.filter_append, hfirst, List.filter_filter]
  refine congrArg _ (List.filter_congr fun key _ => ?_)
  rw [← hfirst]
  -- being new is the same with the description among the keys or without it
  by_cases hkey : key = "description"
  · simp [hkey]
  · simp [hkey]

/-- Each value comes from trimmed data, so that nothing void stands in the configuration. The
properties are the only value that is new, and they are kept only if there are some. -/
theorem taskConfig_tidy : (Tree.map (taskConfig data)).Tidy := by
  have hkeys := trimmedFields_distinctKeys h
  have htidy := trimmedFields_tidy data
  have hdata := (Tree.tidy_map_iff hkeys.distinct).mp htidy
  have hinner := (Tree.tidy_map_iff (innerConfiguration_distinct hkeys)).mp
    (innerConfiguration_tidy hkeys htidy)
  apply (Tree.tidy_map_iff (taskConfig_distinct h)).mpr
  intro key value hget
  rw [get?_taskConfig h] at hget
  split at hget
  · cases hget
  -- a value is from the data itself or from the inner configuration, and both are tidy
  rcases Option.or_eq_some_iff.mp hget with hown | ⟨-, hget⟩
  · split at hown
    · cases hown
    · split at hown
      · split at hown
        · cases hown
        · -- the properties that are kept are some
          rename_i hsome
          cases hown
          exact ⟨List.isEmpty_eq_false_iff.mpr hsome, valuedProperties_tidy hkeys htidy⟩
      · exact hdata key value hown
  · exact hinner key value hget

end Whole

/-! ## Normalization -/

/-- What the configuration of a task is, given the trimmed data of its node. The values and the
order of its keys are told apart, so that each can be read off without the steps that lead to it. -/
structure Normalized (m task : OrderedMap Tree) : Prop where
  /-- A key that means nothing special has its value from the data, and from the inner configuration
  if the data has none. -/
  value : ∀ key ∉ specialKeys, task.get? key = (m.get? key).or ((innerConfiguration m).get? key)
  /-- There is no description. -/
  description : "description" ∉ task.keys
  /-- The properties are those that have a value, in their order. -/
  properties : valuedProperties m ≠ [] →
    task.get? "properties" = some (.seq (valuedProperties m))
  /-- The keys of the data come first, then that of the properties, and then those that are taken
  from the inner configuration. -/
  keys : task.keys = m.keys.filter (· ∉ specialKeys) ++ valuedKey m ++
    (innerConfiguration m).keys.filter fun key =>
      key ≠ "description" ∧ key ∉ m.keys.filter (· ∉ specialKeys) ++ valuedKey m
  /-- No key comes twice. -/
  distinct : task.Distinct
  /-- Trimming changes nothing any more. -/
  trimmed : (Tree.map task).trim = .map task

/-- **The configuration of a task has all that the data of its node says**, and nothing else. What
stands outside wins over what stands inside, and the description is dropped. -/
theorem taskConfig_normalized {data : Option Tree} (h : ∀ t ∈ data, t.DistinctKeys) :
    Normalized (trimmedFields data) (taskConfig data) where
  value key hkey := by
    simp only [specialKeys, List.mem_cons, List.not_mem_nil, or_false, not_or] at hkey
    obtain ⟨hproperties, hconfiguration, hdescription⟩ := hkey
    rw [get?_taskConfig h, if_neg hdescription, if_neg hconfiguration, if_neg hproperties]
  description := by
    apply (OrderedMap.get?_eq_none_iff _ _).mp
    rw [get?_taskConfig h, if_pos rfl]
  properties hsome := by
    rw [get?_taskConfig h, if_neg (by decide), if_neg (by decide), if_pos rfl, if_neg hsome]
    rfl
  keys := keys_taskConfig h
  distinct := taskConfig_distinct h
  trimmed := (taskConfig_tidy h).trim_eq

/-- The data of a camera, with keys that come both outside and inside. -/
def cameraData : Tree :=
  .map ⟨[("description", .text "takes pictures"),
    ("properties", .seq [.map ⟨[("name", .text "rate"), ("Value", .scalar (.int 30))]⟩,
      .map ⟨[("name", .text "gain")]⟩]),
    ("state", .text "RUNNING"),
    ("configuration", .map ⟨[("shutter", .text " "), ("state", .text "STOPPED"),
      ("lens", .text "wide"), ("description", .text "inside")]⟩)]⟩

/-- The camera keeps its state and the property that has a value, and it gets a lens. -/
theorem cameraData_normalized :
    Normalized (trimmedFields (some cameraData)) (taskConfig (some cameraData)) ∧
      taskConfig (some cameraData) = ⟨[("state", .text "RUNNING"),
        ("properties", .seq [.map ⟨[("name", .text "rate"), ("Value", .scalar (.int 30))]⟩]),
        ("lens", .text "wide")]⟩ := by
  have hkeys : ∀ t ∈ some cameraData, t.DistinctKeys := by
    simp [cameraData, Tree.text]
  exact ⟨taskConfig_normalized hkeys, by decide +kernel⟩

end ModelGraph
