import ModelGraph.Proofs.Descriptor.Placement

/-!
# Staged startup

The descriptor of the first stage is the whole descriptor with other states of its tasks and without
connections. This is said of the two documents, where the type and the state of a task stand among
the keys of its own configuration.

- `Tree.stagedDocument`: the document of the first stage, made from the whole document alone.
- `Descriptor.toTree_staged`: staging a descriptor does to its document just that.
- `compile_stages_startup`: when there is a first stage, and what the two documents say of a task.
-/

namespace ModelGraph

open ModelGraph.Graph

/-! ## Documents -/

/-- The document of a task in the first stage. A task of the base type stays as it is, and any other
gets the state: in place of its own, or behind its other keys. This is said of the document alone,
as a reader of the file would see it. -/
def Tree.stagedTask (base state : String) (task : Tree) : Tree :=
  if task.field? "type" = some (.text base) then task else task.set "state" (.text state)

/-- The document of the first stage. It has no connections, and only the tasks differ. -/
def Tree.stagedDocument (base state : String) (document : Tree) : Tree :=
  .map ((document.fields.erase "connections").modify "tasks" fun tasks =>
    .map (tasks.fields.mapValues fun _ task => task.stagedTask base state))

/-- What stands under a key of a task stands in the document of the task. -/
theorem Tree.at?_taskKey (document : Tree) (name key : String) :
    document.at? ["tasks", name, key] = (document.at? ["tasks", name]).bind (·.field? key) := by
  simp only [at?, Option.bind_assoc, Option.bind_fun_some]

/-- The type of a task stays. -/
theorem Tree.stagedTask_type (base state : String) {fields : OrderedMap Tree} :
    ((Tree.map fields).stagedTask base state).field? "type" = (Tree.map fields).field? "type" := by
  unfold stagedTask
  split
  · rfl
  · exact (OrderedMap.get?_insert _ _ _ _).trans (if_neg (by decide))

/-- In the document of the first stage stand the tasks of the whole document, staged. -/
theorem Tree.stagedDocument_task (base state : String) (document : Tree) (name : String) :
    (document.stagedDocument base state).at? ["tasks", name] =
      (document.at? ["tasks", name]).map (Tree.stagedTask base state) := by
  -- dropping the connections does not touch the tasks
  have hfield : (document.stagedDocument base state).field? "tasks" =
      (document.field? "tasks").map fun tasks =>
        .map (tasks.fields.mapValues fun _ task => task.stagedTask base state) := by
    refine (OrderedMap.get?_modify _ _ _ _).trans ?_
    rw [if_pos rfl, OrderedMap.get?_erase_of_ne _ (by decide)]
    cases document <;> rfl
  simp only [at?, hfield, Option.bind_fun_some]
  cases document.field? "tasks" with
  | none => rfl
  | some tasks =>
    refine (OrderedMap.get?_mapValues _ _ _).trans ?_
    cases tasks <;> rfl

namespace TaskEntry

variable (t : TaskEntry)

/-- The type of a task wins over a key of this name in its configuration. -/
theorem toTree_type : t.toTree.field? "type" = some (.text t.typeName) := by
  -- a state is set behind the type, and under another key
  cases hstate : t.state with
  | none =>
    simp only [toTree, hstate]
    exact (OrderedMap.get?_insert _ _ _ _).trans (if_pos rfl)
  | some state =>
    simp only [toTree, hstate]
    refine (OrderedMap.get?_insert _ _ _ _).trans ?_
    rw [if_neg (by decide)]
    exact (OrderedMap.get?_insert _ _ _ _).trans (if_pos rfl)

/-- A task without a state has the one that its configuration gives. -/
theorem toTree_state (h : t.state = none) :
    t.toTree.field? "state" = t.config.get? "state" := by
  simp only [toTree, h]
  exact (OrderedMap.get?_insert _ _ _ _).trans (if_neg (by decide))

/-- Setting the state of a task sets it in the document. -/
theorem toTree_withState (h : t.state = none) (state : String) :
    ({ t with state := some state } : TaskEntry).toTree = t.toTree.set "state" (.text state) := by
  simp only [toTree, h]
  rfl

/-- A task of the base type is left as it is. -/
theorem stagedTask_of_base {base : String} (h : t.typeName = base) (state : String) :
    t.toTree.stagedTask base state = t.toTree := by
  rw [Tree.stagedTask, toTree_type, h, if_pos rfl]

/-- Any other task gets the state. -/
theorem stagedTask_of_ne {base : String} (h : t.typeName ≠ base) (state : String) :
    t.toTree.stagedTask base state = t.toTree.set "state" (.text state) := by
  have hne : (some (Tree.text t.typeName) : Option Tree) ≠ some (.text base) := by
    simpa [Tree.text] using h
  rw [Tree.stagedTask, toTree_type, if_neg hne]

end TaskEntry

/-- **Staging a descriptor changes the states in its document and nothing else**, as long as its
tasks have no states but those of their configurations. -/
theorem Descriptor.toTree_staged (d : Descriptor) (h : ∀ e ∈ d.tasks.entries, e.2.state = none)
    (base state : String) : (d.staged base state).toTree = d.toTree.stagedDocument base state := by
  have htasks : ((d.tasks.mapValues fun _ t =>
        if t.typeName = base then t else { t with state := some state }).mapValues
          fun _ t => t.toTree) =
      (d.tasks.mapValues fun _ t => t.toTree).mapValues fun _ t => t.stagedTask base state := by
    simp only [OrderedMap.mapValues, List.map_map, OrderedMap.mk.injEq]
    refine List.map_congr_left fun e he => ?_
    simp only [Function.comp_apply, Prod.mk.injEq, true_and]
    -- the test on the document agrees with the one on the entry
    by_cases hbase : e.2.typeName = base
    · rw [if_pos hbase, TaskEntry.stagedTask_of_base _ hbase]
    · rw [if_neg hbase, TaskEntry.stagedTask_of_ne _ hbase, TaskEntry.toTree_withState _ (h e he)]
  simp only [staged, toTree, htasks, Tree.stagedDocument]
  cases d.connections <;> rfl

/-- Staging keeps the deployments and the order of the tasks. -/
theorem Descriptor.toTree_stagedDocument (d : Descriptor) (base state : String) :
    (d.toTree.stagedDocument base state).fields.keys = ["deployments", "tasks"] ∧
      (d.toTree.stagedDocument base state).field? "deployments" =
        d.toTree.field? "deployments" ∧
      ((d.toTree.stagedDocument base state).field? "tasks").map (fun t => t.fields.keys) =
        (d.toTree.field? "tasks").map fun t => t.fields.keys := by
  have hkeys : (((d.tasks.mapValues fun _ t => t.toTree).mapValues
      fun _ t => t.stagedTask base state).keys) = (d.tasks.mapValues fun _ t => t.toTree).keys :=
    OrderedMap.keys_mapValues _ _
  rw [toTree]
  -- the section of connections is dropped, so both cases end alike
  cases d.connections with
  | none => exact ⟨rfl, rfl, congrArg some hkeys⟩
  | some connections => exact ⟨rfl, rfl, congrArg some hkeys⟩

/-! ## Descriptors -/

/-- How the first stage of a compiled graph relates to the whole. The documents are compared as
wholes, and what is said of single tasks follows from that. -/
structure StartupStaged (g : Graph) (o : CompileOptions) (c : Compiled) : Prop where
  /-- There is a first stage exactly if a task has the base type. -/
  exists_iff : (∃ pre, c.pre = some pre) ↔ ∃ n ∈ g.nodes, o.isTask n = true ∧
    (if n.modelName = "" then n.typeName else n.modelName) = o.baseTaskType
  /-- The document of the first stage is the whole document, staged. -/
  staged : ∀ pre, c.pre = some pre →
    pre.toTree = c.descriptor.toTree.stagedDocument o.baseTaskType o.preOperationalState
  /-- It has no connections, and the deployments and the order of the tasks are the same. -/
  sections : ∀ pre, c.pre = some pre → pre.toTree.fields.keys = ["deployments", "tasks"] ∧
    pre.toTree.field? "deployments" = c.descriptor.toTree.field? "deployments" ∧
    (pre.toTree.field? "tasks").map (fun t => t.fields.keys) =
      (c.descriptor.toTree.field? "tasks").map (fun t => t.fields.keys)
  /-- A task of the base type has the same document in both. -/
  baseTask : ∀ pre, c.pre = some pre → ∀ n ∈ g.nodes, o.isTask n = true →
    n.compiledType = o.baseTaskType →
    pre.toTree.at? ["tasks", n.name] = c.descriptor.toTree.at? ["tasks", n.name]
  /-- Any other task has the state of the first stage set among the same keys. -/
  otherTask : ∀ pre, c.pre = some pre → ∀ n ∈ g.nodes, o.isTask n = true →
    n.compiledType ≠ o.baseTaskType →
    ∃ fields, c.descriptor.toTree.at? ["tasks", n.name] = some (.map fields) ∧
      pre.toTree.at? ["tasks", n.name] =
        some (.map (fields.insert "state" (.text o.preOperationalState)))
  /-- The type of a task is the one it is compiled to, whatever its configuration says. -/
  type : ∀ d, d = c.descriptor ∨ c.pre = some d → ∀ n ∈ g.nodes, o.isTask n = true →
    d.toTree.at? ["tasks", n.name, "type"] = some (.text n.compiledType)
  /-- In the whole document a task has no state but that of its configuration. -/
  state : ∀ n ∈ g.nodes, o.isTask n = true →
    c.descriptor.toTree.at? ["tasks", n.name, "state"] = (taskConfig n.data).get? "state"

variable {g : Graph} {o : CompileOptions} {d : Descriptor} {n : Node}

/-- A node is compiled to its model if it names one, and otherwise to its type. -/
theorem Node.compiledType_eq (n : Node) :
    n.compiledType = if n.modelName = "" then n.typeName else n.modelName := by
  simp only [compiledType, String.isEmpty_iff]

/-- The document of a placed task. -/
theorem Placed.task (h : Placed g o g.nodes d) (hwf : g.WellFormed) (hn : n ∈ g.nodes)
    (ht : o.isTask n = true) : d.tasks.get? n.name = some n.taskEntry := by
  have hkeys := hwf.filter_entries_nodup o.isTask Node.taskEntry
  rw [h.tasks]
  refine (OrderedMap.lookup_eq_some_iff_mem hkeys _ _).mpr ?_
  exact List.mem_map.mpr ⟨n, List.mem_filter.mpr ⟨hn, ht⟩, rfl⟩

/-- Under the name of a task node stands its task in the document. -/
theorem finish_task (hwf : g.WellFormed) (hplaced : Placed g o g.nodes d)
    (explicit : OrderedMap Deployment) (hn : n ∈ g.nodes) (ht : o.isTask n = true) :
    (g.finish o explicit d).descriptor.toTree.at? ["tasks", n.name] =
      some n.taskEntry.toTree := by
  change ((d.tasks.mapValues fun _ t => t.toTree).get? n.name).bind some = _
  rw [OrderedMap.get?_mapValues, hplaced.task hwf hn ht]
  rfl

/-- A first stage is made exactly if a task has the base type, and then it is the descriptor itself,
staged. -/
theorem finish_pre (hplaced : Placed g o g.nodes d) (explicit : OrderedMap Deployment) :
    (g.finish o explicit d).pre =
      if ∃ n ∈ g.nodes, o.isTask n = true ∧ n.compiledType = o.baseTaskType then
        some ((g.finish o explicit d).descriptor.staged o.baseTaskType o.preOperationalState)
      else none := by
  have hcount : 0 < d.tasks.values.countP (·.typeName == o.baseTaskType) ↔
      ∃ n ∈ g.nodes, o.isTask n = true ∧ n.compiledType = o.baseTaskType := by
    rw [List.countP_pos_iff, hplaced.tasks]
    -- tasks of the base type are counted among the placed ones, which are the task nodes
    constructor
    · rintro ⟨t, ht, hbase⟩
      simp only [OrderedMap.values, List.map_map, List.mem_map, List.mem_filter] at ht
      obtain ⟨n, ⟨hn, htask⟩, rfl⟩ := ht
      exact ⟨n, hn, htask, beq_iff_eq.mp hbase⟩
    · rintro ⟨n, hn, htask, hbase⟩
      refine ⟨n.taskEntry, ?_, beq_iff_eq.mpr hbase⟩
      simp only [OrderedMap.values, List.map_map, List.mem_map, List.mem_filter]
      exact ⟨n, ⟨hn, htask⟩, rfl⟩
  simp only [finish, gt_iff_lt, hcount]

/-- The document of the first stage is the whole document, staged. -/
theorem finish_staged (hplaced : Placed g o g.nodes d) (explicit : OrderedMap Deployment)
    {pre : Descriptor} (h : (g.finish o explicit d).pre = some pre) :
    pre.toTree = (g.finish o explicit d).descriptor.toTree.stagedDocument o.baseTaskType
      o.preOperationalState := by
  rw [finish_pre hplaced] at h
  split at h
  · cases h
    -- no task has a state of its own before it is staged
    refine Descriptor.toTree_staged _ (fun e he => ?_) _ _
    simp only [finish, hplaced.tasks] at he
    obtain ⟨n, -, rfl⟩ := List.mem_map.mp he
    rfl
  · cases h

/-- **The first stage of a compiled graph has other states and no connections, and is otherwise the
whole.** It is there exactly if there is a task of the base type. -/
theorem compile_stages_startup (hwf : g.WellFormed) (c : Compiled) (h : g.compile o = .ok c) :
    StartupStaged g o c := by
  obtain ⟨d, hplaced, rfl⟩ := compile_placed hwf h
  have hpre := finish_pre hplaced (g.explicitDeployments o)
  have hstaged : ∀ pre, (g.finish o (g.explicitDeployments o) d).pre = some pre →
      pre.toTree = (g.finish o (g.explicitDeployments o) d).descriptor.toTree.stagedDocument
        o.baseTaskType o.preOperationalState :=
    fun _ => finish_staged hplaced (g.explicitDeployments o)
  have hwhole := fun n hn ht => finish_task (n := n) hwf hplaced (g.explicitDeployments o) hn ht
  have htask : ∀ pre, (g.finish o (g.explicitDeployments o) d).pre = some pre → ∀ n ∈ g.nodes,
      o.isTask n = true → pre.toTree.at? ["tasks", n.name] =
        some (n.taskEntry.toTree.stagedTask o.baseTaskType o.preOperationalState) := by
    intro pre hsome n hn ht
    rw [hstaged pre hsome, Tree.stagedDocument_task, hwhole n hn ht, Option.map_some]
  exact {
    exists_iff := by
      simp only [← Node.compiledType_eq, hpre]
      split
      · rename_i hbase
        exact ⟨fun _ => hbase, fun _ => ⟨_, rfl⟩⟩
      · rename_i hnone
        -- without a base task there is no document to begin with
        refine ⟨fun hsome => ?_, fun hbase => absurd hbase hnone⟩
        obtain ⟨_, hsome⟩ := hsome
        cases hsome
    staged := hstaged
    sections := by
      intro pre hsome
      rw [hstaged pre hsome]
      exact Descriptor.toTree_stagedDocument _ _ _
    baseTask := by
      intro pre hsome n hn ht hbase
      rw [htask pre hsome n hn ht, hwhole n hn ht, TaskEntry.stagedTask_of_base _ hbase]
    otherTask := by
      intro pre hsome n hn ht hother
      rw [htask pre hsome n hn ht, hwhole n hn ht, TaskEntry.stagedTask_of_ne _ hother]
      exact ⟨_, rfl, rfl⟩
    type := by
      rintro x (rfl | hsome) n hn ht
      · rw [Tree.at?_taskKey, hwhole n hn ht]
        exact n.taskEntry.toTree_type
      · rw [Tree.at?_taskKey, htask x hsome n hn ht]
        exact Tree.stagedTask_type _ _ |>.trans n.taskEntry.toTree_type
    state := by
      intro n hn ht
      rw [Tree.at?_taskKey, hwhole n hn ht]
      exact n.taskEntry.toTree_state rfl }

/-- Two tasks, one of them of the base type, whose configurations have states and types of their
own. -/
def stageGraph : Graph where
  nodes := [
    { name := "bridge", domain := "software", typeName := "mars::core::Task",
      modelName := "mars::Task",
      data := some (.ofEntries [("state", .text "RUNNING")]) },
    { name := "camera", domain := "software", typeName := "camera::core::Task",
      data := some (.ofEntries [("state", .text "RUNNING"), ("type", .text "fast")]) }]
  edges := [{ ends := ⟨"camera", "image", "bridge", "image"⟩ }]
  types := OrderedMap.empty

set_option maxRecDepth 10000 in
/-- In the first stage the camera starts in its new state, and its document is otherwise the
same. -/
theorem stageGraph_staged :
    stageGraph.WellFormed ∧ ∃ c pre, stageGraph.compile {} = .ok c ∧ c.pre = some pre ∧
      c.descriptor.toTree.at? ["tasks", "camera", "state"] = some (.text "RUNNING") ∧
      pre.toTree.at? ["tasks", "camera", "state"] = some (.text "PRE_OPERATIONAL") ∧
      pre.toTree.at? ["tasks", "camera", "type"] = some (.text "camera::core::Task") ∧
      pre.toTree.at? ["tasks", "bridge"] = c.descriptor.toTree.at? ["tasks", "bridge"] := by
  have hwf : stageGraph.WellFormed := ⟨by decide, by decide⟩
  have hsome : (stageGraph.compile {}).toOption.isSome = true := by decide +kernel
  cases h : stageGraph.compile {} with
  | error e =>
    rw [h] at hsome
    cases hsome
  | ok c =>
    have hstaged := compile_stages_startup hwf c h
    obtain ⟨pre, hpre⟩ := hstaged.exists_iff.mpr
      ⟨stageGraph.nodes[0], by decide, by decide +kernel, by decide +kernel⟩
    have hbridge := hstaged.baseTask pre hpre (stageGraph.nodes[0]) (by decide) (by decide +kernel)
      (by decide +kernel)
    have htype := hstaged.type pre (.inr hpre) (stageGraph.nodes[1]) (by decide)
      (by decide +kernel)
    have hstate := hstaged.state (stageGraph.nodes[1]) (by decide) (by decide +kernel)
    obtain ⟨fields, -, hcamera⟩ := hstaged.otherTask pre hpre (stageGraph.nodes[1]) (by decide)
      (by decide +kernel) (by decide +kernel)
    refine ⟨hwf, c, pre, rfl, hpre, hstate.trans (by decide +kernel), ?_, htype, hbridge⟩
    have hkey := pre.toTree.at?_taskKey "camera" "state"
    rw [show pre.toTree.at? ["tasks", "camera"] = _ from hcamera] at hkey
    exact hkey.trans ((OrderedMap.get?_insert fields "state" "state" _).trans (if_pos rfl))

end ModelGraph
