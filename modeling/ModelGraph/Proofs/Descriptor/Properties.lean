import ModelGraph.Proofs.Descriptor.Normalization
import ModelGraph.Proofs.Descriptor.Staging

/-!
# Properties in descriptors

Of the properties of a node only those that have a value reach a descriptor. A node may also name
properties in its inner configuration. If none of its own are kept, those take their place, and they
are not looked at.

- `Compiled.stages`: the descriptors of a compiled graph.
- `compile_task_config`: every task has the configuration of a node.
- `taskConfig_properties`: where the properties of a task come from.
- `compile_keeps_valued_properties`: the properties in the descriptors of a compiled graph.
-/

namespace ModelGraph

open ModelGraph.Graph

/-! ## Tasks of descriptors -/

/-- The whole descriptor and the one of the first stage, if there is one. -/
def Compiled.stages (c : Compiled) : List Descriptor := c.descriptor :: c.pre.toList

variable {g : Graph} {o : CompileOptions} {c : Compiled} {d : Descriptor} {name : String}
  {t : TaskEntry}

/-- Staging changes no configuration. -/
theorem Descriptor.config_of_staged {base state : String}
    (ht : (d.staged base state).tasks.get? name = some t) :
    ∃ whole, d.tasks.get? name = some whole ∧ t.config = whole.config := by
  unfold staged at ht
  rw [OrderedMap.get?_mapValues] at ht
  obtain ⟨whole, hwhole, rfl⟩ := Option.map_eq_some_iff.mp ht
  refine ⟨whole, hwhole, ?_⟩
  split <;> rfl

/-- A placed task is the entry of a task node. -/
theorem Placed.node_of_task (h : Placed g o g.nodes d) (hwf : g.WellFormed)
    (ht : d.tasks.get? name = some t) :
    ∃ n, g.node? name = some n ∧ o.isTask n = true ∧ t = n.taskEntry := by
  rw [h.tasks] at ht
  have hkeys := hwf.filter_entries_nodup o.isTask Node.taskEntry
  have hmem := (OrderedMap.lookup_eq_some_iff_mem hkeys name t).mp ht
  obtain ⟨n, hn, heq⟩ := List.mem_map.mp hmem
  cases heq
  obtain ⟨hn, htask⟩ := List.mem_filter.mp hn
  exact ⟨n, hwf.node?_eq_some_iff.mpr ⟨hn, rfl⟩, htask, rfl⟩

/-- Every task of a descriptor has the configuration of the task node with its name. This holds for
both stages, because staging changes the state alone. -/
theorem compile_task_config (hwf : g.WellFormed) (h : g.compile o = .ok c) (hd : d ∈ c.stages)
    (ht : d.tasks.get? name = some t) :
    ∃ n, g.node? name = some n ∧ o.isTask n = true ∧ t.config = taskConfig n.data := by
  obtain ⟨placed, hplaced, rfl⟩ := compile_placed hwf h
  -- the tasks of both descriptors are those that have been placed, as far as configurations go
  obtain ⟨whole, hwhole, hconfig⟩ : ∃ whole, placed.tasks.get? name = some whole ∧
      t.config = whole.config := by
    rcases List.mem_cons.mp hd with rfl | hpre
    · exact ⟨t, ht, rfl⟩
    · rw [Option.mem_toList, finish_pre hplaced] at hpre
      split at hpre
      · cases hpre
        exact Descriptor.config_of_staged ht
      · cases hpre
  obtain ⟨n, hn, htask, rfl⟩ := hplaced.node_of_task hwf hwhole
  exact ⟨n, hn, htask, hconfig⟩

/-! ## Properties of tasks -/

/-- Some properties, all of which have a value. The list is never empty, since nothing is left of
properties without any value. -/
def Tree.IsValued (properties : Tree) : Prop :=
  ∃ items, properties = .seq items ∧ items ≠ [] ∧ ∀ p ∈ items, p.hasField "Value" = true

/-- The properties of a task have values, unless none of those of its node have one and others come
from the inner configuration. -/
theorem taskConfig_properties {data : Option Tree} (h : ∀ tree ∈ data, tree.DistinctKeys)
    {properties : Tree} (hget : (taskConfig data).get? "properties" = some properties) :
    properties.IsValued ∨ valuedProperties (trimmedFields data) = [] ∧
      (innerConfiguration (trimmedFields data)).get? "properties" = some properties := by
  rw [get?_taskConfig h, if_neg (by decide), if_neg (by decide), if_pos rfl] at hget
  -- if some properties are kept, those inside are not taken, since the key is there already
  by_cases hvalued : valuedProperties (trimmedFields data) = []
  · right
    rw [if_pos hvalued] at hget
    exact ⟨hvalued, hget⟩
  · left
    rw [if_neg hvalued] at hget
    cases hget
    exact ⟨_, rfl, hvalued, fun p hp => (List.mem_filter.mp hp).2⟩

/-- **Only properties with a value reach a descriptor**, as far as they are the properties of a
node. Properties that are named in its inner configuration are not looked at. -/
theorem compile_keeps_valued_properties (hwf : g.WellFormed)
    (hdata : ∀ n ∈ g.nodes, ∀ tree ∈ n.data, tree.DistinctKeys) (h : g.compile o = .ok c)
    (hd : d ∈ c.stages) (ht : d.tasks.get? name = some t) :
    ∃ n, g.node? name = some n ∧ o.isTask n = true ∧
      ∀ properties, t.config.get? "properties" = some properties →
        properties.IsValued ∨ valuedProperties (trimmedFields n.data) = [] ∧
          (innerConfiguration (trimmedFields n.data)).get? "properties" = some properties := by
  obtain ⟨n, hn, htask, hconfig⟩ := compile_task_config hwf h hd ht
  refine ⟨n, hn, htask, fun properties hget => ?_⟩
  -- the settings of a task are those of its node, brought into form
  rw [hconfig] at hget
  apply taskConfig_properties _ hget
  exact hdata n (List.mem_of_find?_eq_some hn)

/-! ## A camera and an eye -/

/-- A property that has a name but no value. -/
def bareProperty : Tree := .map ⟨[("name", .text "fps")]⟩

/-- A task with properties of its own, one of which has a value. -/
def cameraNode : Node where
  name := "camera"
  domain := "software"
  typeName := "camera::Task"
  modelName := "mars::Task"
  data := some (.map ⟨[("properties",
    .seq [bareProperty, .map ⟨[("name", .text "gain"), ("Value", .scalar (.int 2))]⟩])]⟩)

/-- A task that names properties only inside. -/
def eyeNode : Node where
  name := "eye"
  domain := "software"
  typeName := "camera::Task"
  data := some (.map ⟨[("configuration", .map ⟨[("properties", .seq [bareProperty])]⟩)]⟩)

/-- The two tasks. The camera has the base type, so there is a first stage. -/
def eyeGraph : Graph := ⟨[cameraNode, eyeNode], [], OrderedMap.empty⟩

/-- The two tasks have different names. -/
theorem eyeGraph_wellFormed : eyeGraph.WellFormed := ⟨by decide, by decide⟩

/-- In the first stage the camera has properties, and they have values. -/
theorem eyeGraph_camera_valued :
    ∃ c pre t properties, eyeGraph.compile {} = .ok c ∧ c.pre = some pre ∧
      pre.tasks.get? "camera" = some t ∧ t.config.get? "properties" = some properties ∧
      properties.IsValued := by
  have hdata : ∀ n ∈ eyeGraph.nodes, ∀ tree ∈ n.data, tree.DistinctKeys := by
    simp [eyeGraph, cameraNode, eyeNode, bareProperty, Tree.text]
  obtain ⟨c, pre, t, properties, hc, hpre, ht, hget⟩ : ∃ c pre t properties,
      eyeGraph.compile {} = .ok c ∧ c.pre = some pre ∧ pre.tasks.get? "camera" = some t ∧
        t.config.get? "properties" = some properties := ⟨_, _, _, _, rfl, rfl, rfl, rfl⟩
  have hd : pre ∈ c.stages := List.mem_cons_of_mem _ (Option.mem_toList.mpr hpre)
  obtain ⟨n, hn, -, hvalues⟩ := compile_keeps_valued_properties eyeGraph_wellFormed hdata hc hd ht
  refine ⟨c, pre, t, properties, hc, hpre, ht, hget, ?_⟩
  -- the camera has a property with a value, so nothing comes from inside
  obtain rfl : n = cameraNode := (Option.some.inj hn).symm
  rcases hvalues properties hget with hvalued | ⟨hnone, -⟩
  · exact hvalued
  · exact absurd hnone (by decide +kernel)

/-- The eye has a property without a value in the descriptor. -/
theorem eyeGraph_unvalued :
    eyeGraph.WellFormed ∧ ∃ c t, eyeGraph.compile {} = .ok c ∧
      c.descriptor.tasks.get? "eye" = some t ∧
      t.config.get? "properties" = some (.seq [bareProperty]) ∧
      ¬ (Tree.seq [bareProperty]).IsValued := by
  refine ⟨eyeGraph_wellFormed, _, _, rfl, rfl, rfl, ?_⟩
  rintro ⟨items, heq, -, hvalued⟩
  cases heq
  have hbare := hvalued bareProperty (List.mem_singleton_self _)
  cases hbare

end ModelGraph
