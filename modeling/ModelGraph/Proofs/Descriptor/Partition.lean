import Mathlib.Data.List.Nodup
import ModelGraph.Proofs.Descriptor.Placement

/-!
# Tasks and their deployments

The tasks of a descriptor are partitioned over its deployments: every task is listed by one
deployment, and no deployment lists anything else.

- `deploymentAt_taskList`: a deployment lists the tasks that go to it, in their order.
- `deploymentNames`: the names of all deployments, as the graph tells them.
- `compile_partitions_tasks`: what this means for a descriptor, its statistics and its warnings.
-/

namespace ModelGraph

open ModelGraph.Graph

/-! ## Task lists -/

/-- Adding tasks one by one fills the list of a deployment in the same order, whatever happens to
its process name. -/
private theorem addTask_taskList (processName : String) (tasks : List Node) :
    ∀ d : Deployment,
      (tasks.foldl (fun d n => d.addTask processName n.name n.role) d).taskList =
        (tasks.map fun n => (n.name, n.role)).foldl (fun m (k, v) => m.insert k v) d.taskList := by
  induction tasks with
  | nil => intro d; rfl
  | cons n rest ih => intro d; exact ih _

/-- A deployment without tasks of its own lists those that are added to it. -/
theorem Deployment.holding_taskList {settings : Deployment}
    (hempty : settings.taskList = OrderedMap.empty) {tasks : List Node}
    (hnames : (tasks.map Node.name).Nodup) :
    (settings.holding tasks).taskList = ⟨tasks.map fun n => (n.name, n.role)⟩ := by
  have hkeys : ((tasks.map fun n => (n.name, n.role)).map Prod.fst).Nodup := by
    rw [List.map_map]
    exact hnames
  rw [holding, addTask_taskList, hempty]
  exact OrderedMap.ofList_eq_of_nodup hkeys

variable {g : Graph} {o : CompileOptions} {n : Node} {name : String}

/-- The tasks without a parent. Each of them gets a deployment of its own. -/
def Graph.orphans (g : Graph) (o : CompileOptions) : List Node :=
  g.nodes.filter fun n => o.isTask n && n.parent?.isNone

/-- They are told by their nodes. -/
theorem mem_orphans : n ∈ g.orphans o ↔ n ∈ g.nodes ∧ o.isTask n = true ∧ n.parent? = none := by
  simp [orphans]

/-- No two tasks of a deployment have the same name. -/
theorem hosted_names_nodup (hwf : g.WellFormed) (name : String) :
    ((o.hosted name g.nodes).map Node.name).Nodup :=
  hwf.filter_names_nodup _

/-- A task goes to a deployment node or to a deployment of its own. -/
theorem mem_hosted_cases (hvalid : g.Valid o) (h : n ∈ o.hosted name g.nodes) :
    g.hasDeployment o name = true ∨ n ∈ g.orphans o := by
  obtain ⟨hn, ht, rfl⟩ := CompileOptions.mem_hosted.mp h
  -- validation has made sure that a parent is a deployment node
  cases hparent : n.parent? with
  | none => exact .inr (mem_orphans.mpr ⟨hn, ht, hparent⟩)
  | some parent =>
    rw [Node.host_of_parent hparent]
    exact .inl ((hvalid n hn ht).parent parent hparent)

/-- The deployment of a task without a parent is not that of a deployment node. -/
theorem hasDeployment_of_orphan (hvalid : g.Valid o) (h : n ∈ g.orphans o) :
    g.hasDeployment o n.host = false := by
  obtain ⟨hn, ht, hparent⟩ := mem_orphans.mp h
  rw [Node.host_of_orphan hparent]
  exact (hvalid n hn ht).own hparent

/-- No other task goes to the deployment of a task without a parent. A task with a parent goes to a
deployment node, whose name validation has kept apart from this one, and two tasks without a parent
have different names. -/
theorem hosted_of_orphan (hwf : g.WellFormed) (hvalid : g.Valid o) (h : n ∈ g.orphans o) :
    o.hosted n.host g.nodes = [n] := by
  obtain ⟨hn, ht, hparent⟩ := mem_orphans.mp h
  have honly : ∀ m ∈ o.hosted n.host g.nodes, m = n := by
    intro m hm
    obtain ⟨hmem, -, hhost⟩ := CompileOptions.mem_hosted.mp hm
    rcases mem_hosted_cases hvalid hm with hdep | horphan
    · rw [hasDeployment_of_orphan hvalid h] at hdep
      cases hdep
    · have hmparent := (mem_orphans.mp horphan).2.2
      rw [Node.host_of_orphan hmparent, Node.host_of_orphan hparent] at hhost
      exact hwf.eq_of_name hmem hn (implicitDeployment_injective hhost)
  have hself : n ∈ o.hosted n.host g.nodes := CompileOptions.mem_hosted.mpr ⟨hn, ht, rfl⟩
  have hnodup : (o.hosted n.host g.nodes).Nodup :=
    List.Nodup.of_map Node.name (hosted_names_nodup hwf _)
  -- a list without repetition that holds `n` and nothing else
  refine List.perm_singleton.mp ((List.perm_ext_iff_of_nodup hnodup (by simp)).mpr fun m => ?_)
  rw [List.mem_singleton]
  exact ⟨honly m, fun heq => heq ▸ hself⟩

/-- **A deployment lists the tasks that go to it**, in the order of the nodes. For a deployment node
these are all that name it, and any other deployment has the one task that made it. -/
theorem deploymentAt_taskList (hwf : g.WellFormed) (hvalid : g.Valid o) {d : Deployment}
    (h : g.deploymentAt o g.nodes name = some d) :
    d.taskList.keys = (o.hosted name g.nodes).map Node.name := by
  unfold deploymentAt at h
  -- a deployment node lists all tasks that go to it, and any other deployment has a single task
  cases hget : (g.explicitDeployments o).get? name with
  | some settings =>
    simp only [hget] at h
    split at h
    · cases h
      obtain ⟨m, -, -, -, rfl⟩ := hwf.explicitDeployments_get?_eq_some_iff.mp hget
      rw [Deployment.holding_taskList rfl (hosted_names_nodup hwf name)]
      simp [OrderedMap.keys, Function.comp_def]
    · cases h
  | none =>
    simp only [hget] at h
    obtain ⟨t, hhead, rfl⟩ := Option.map_eq_some_iff.mp h
    have ht : t ∈ o.hosted name g.nodes := List.mem_of_head? hhead
    have hhost := (CompileOptions.mem_hosted.mp ht).2.2
    -- no node has made the deployment, so a task without a parent has
    rcases mem_hosted_cases hvalid ht with hdep | horphan
    · rw [hwf.explicitDeployments_get?_eq_none_iff.mp hget] at hdep
      cases hdep
    · rw [← hhost, hosted_of_orphan hwf hvalid horphan]
      rfl

/-! ## Deployments -/

/-- The names of all deployments: those of the deployment nodes, and one for each task without a
parent. -/
def Graph.deploymentNames (g : Graph) (o : CompileOptions) : List String :=
  (g.nodes.filter o.isDeployment).map Node.name ++
    (g.orphans o).map fun n => implicitDeployment n.name

/-- A name is that of a deployment if a deployment node has it, or if a task without a parent goes
there. -/
theorem mem_deploymentNames_iff (hwf : g.WellFormed) :
    name ∈ g.deploymentNames o ↔
      g.hasDeployment o name = true ∨ ∃ n ∈ g.orphans o, n.host = name := by
  rw [deploymentNames, List.mem_append, hwf.hasDeployment_iff]
  refine or_congr ?_ ?_
  · simp only [List.mem_map, List.mem_filter, and_assoc]
  · rw [List.mem_map]
    refine exists_congr fun n => and_congr_right fun h => ?_
    rw [Node.host_of_orphan (mem_orphans.mp h).2.2]

/-- No two deployments have the same name. Nodes have distinct names, and validation has kept the
names of implicit deployments free. -/
theorem deploymentNames_nodup (hwf : g.WellFormed) (hvalid : g.Valid o) :
    (g.deploymentNames o).Nodup := by
  have hdeployments := hwf.filter_names_nodup o.isDeployment
  have horphans : ((g.orphans o).map fun n => implicitDeployment n.name).Nodup := by
    have hnames : ((g.orphans o).map Node.name).Nodup := hwf.filter_names_nodup _
    have hmapped := List.Nodup.map (fun _ _ => implicitDeployment_injective) hnames
    rwa [List.map_map] at hmapped
  refine List.nodup_append.mpr ⟨hdeployments, horphans, fun a ha b hb hab => ?_⟩
  -- a shared name would be that of a deployment node, which validation has ruled out
  obtain ⟨m, hm, rfl⟩ := List.mem_map.mp ha
  obtain ⟨n, hn, rfl⟩ := List.mem_map.mp hb
  obtain ⟨hm, hdep⟩ := List.mem_filter.mp hm
  have hfree := hasDeployment_of_orphan hvalid hn
  rw [Node.host_of_orphan (mem_orphans.mp hn).2.2, ← hab] at hfree
  rw [(hwf.hasDeployment_iff _).mpr ⟨m, hm, hdep, rfl⟩] at hfree
  cases hfree

/-- The deployments of a graph are there once all nodes have been placed, and no others are. That of
a deployment node is there even without tasks. -/
theorem deploymentAt_isSome_iff (hwf : g.WellFormed) (hvalid : g.Valid o) :
    (g.deploymentAt o g.nodes name).isSome = true ↔ name ∈ g.deploymentNames o := by
  rw [mem_deploymentNames_iff hwf, deploymentAt]
  cases hget : (g.explicitDeployments o).get? name with
  | some settings =>
    obtain ⟨m, hm, hdep, rfl, -⟩ := hwf.explicitDeployments_get?_eq_some_iff.mp hget
    -- the node of the deployment has been placed with all others
    have hthere : m.name ∈ g.nodes.map Node.name := List.mem_map_of_mem hm
    simp [hthere, (hwf.hasDeployment_iff _).mpr ⟨m, hm, hdep, rfl⟩]
  | none =>
    -- without such a node only a task without a parent can have made it
    have hfree := hwf.explicitDeployments_get?_eq_none_iff.mp hget
    simp only [hfree, Option.isSome_map, Bool.false_eq_true, false_or]
    constructor
    · intro h
      obtain ⟨n, hhead⟩ := Option.isSome_iff_exists.mp h
      have hn : n ∈ o.hosted name g.nodes := List.mem_of_head? hhead
      refine ⟨n, ?_, (CompileOptions.mem_hosted.mp hn).2.2⟩
      rcases mem_hosted_cases hvalid hn with hdep | horphan
      · rw [hfree] at hdep
        cases hdep
      · exact horphan
    · rintro ⟨n, horphan, rfl⟩
      rw [hosted_of_orphan hwf hvalid horphan]
      rfl

/-! ## Descriptors -/

/-- The tasks of a compiled graph are partitioned over its deployments. All of this is said in terms
of the nodes of the graph, and none of it mentions the course of the compilation. -/
structure TasksPartitioned (g : Graph) (o : CompileOptions) (c : Compiled) : Prop where
  /-- The tasks are the task nodes, in their order. -/
  tasks : c.descriptor.tasks.keys = (g.nodes.filter o.isTask).map Node.name
  /-- The deployments are those of the deployment nodes and of the tasks without a parent. -/
  deployments : c.descriptor.deployments.keys.Perm (g.deploymentNames o)
  /-- No deployment comes twice. -/
  distinct : c.descriptor.deployments.Distinct
  /-- A deployment lists the tasks that go to it, in the order of the nodes. -/
  taskLists : ∀ name d, c.descriptor.deployments.get? name = some d →
    d.taskList.keys = (o.hosted name g.nodes).map Node.name
  /-- A task is listed by exactly one deployment, which is that of its parent or its own. -/
  listedOnce : ∀ n ∈ g.nodes, o.isTask n = true → ∀ name,
    (∃ d, c.descriptor.deployments.get? name = some d ∧ n.name ∈ d.taskList.keys) ↔ name = n.host
  /-- Nothing but tasks is listed. -/
  listsTasks : ∀ name d, c.descriptor.deployments.get? name = some d →
    ∀ task ∈ d.taskList.keys, task ∈ c.descriptor.tasks.keys
  /-- Only deployment nodes have several tasks. -/
  several : ∀ name d, c.descriptor.deployments.get? name = some d → 1 < d.taskList.size →
    ∃ n ∈ g.nodes, o.isDeployment n = true ∧ n.name = name
  taskCount : c.stats.tasks = (g.nodes.filter o.isTask).length
  deploymentCount : c.stats.deployments = (g.deploymentNames o).length
  multiTaskCount : c.stats.multiTaskDeployments =
    ((g.nodes.filter o.isDeployment).filter fun n => 1 < (o.hosted n.name g.nodes).length).length
  /-- There is one warning for each deployment node without tasks. -/
  warnings : c.warnings.Perm
    (((g.nodes.filter o.isDeployment).filter fun n => (o.hosted n.name g.nodes).isEmpty).map
      fun n => "deployment " ++ n.name ++ " has no tasks")

/-- Settling a deployment renames no task. -/
@[simp]
theorem Deployment.consolidate_taskList_keys (explicit : OrderedMap Deployment) (name : String)
    (d : Deployment) : (d.consolidate explicit name).taskList.keys = d.taskList.keys := by
  unfold consolidate
  split
  · exact OrderedMap.keys_mapValues _ _
  · rfl

section Finish

variable {d : Descriptor}

/-- The deployments of a descriptor are those that its nodes have made, consolidated. -/
theorem finish_deployments_get? (hplaced : Placed g o g.nodes d) (name : String) :
    (g.finish o (g.explicitDeployments o) d).descriptor.deployments.get? name =
      (g.deploymentAt o g.nodes name).map
        (Deployment.consolidate (g.explicitDeployments o) name) := by
  simp only [finish, OrderedMap.get?_mapValues, hplaced.deployments]

/-- No deployment comes twice in a descriptor. -/
theorem finish_deployments_distinct (hplaced : Placed g o g.nodes d) :
    (g.finish o (g.explicitDeployments o) d).descriptor.deployments.Distinct := by
  simp only [OrderedMap.Distinct, finish, OrderedMap.keys_mapValues]
  exact hplaced.distinct

/-- A deployment of a descriptor lists the tasks that go to it, in the order of the nodes. -/
theorem finish_taskList (hwf : g.WellFormed) (hvalid : g.Valid o) (hplaced : Placed g o g.nodes d)
    {x : Deployment}
    (h : (g.finish o (g.explicitDeployments o) d).descriptor.deployments.get? name = some x) :
    x.taskList.keys = (o.hosted name g.nodes).map Node.name := by
  rw [finish_deployments_get? hplaced] at h
  obtain ⟨x', hat, rfl⟩ := Option.map_eq_some_iff.mp h
  rw [Deployment.consolidate_taskList_keys, deploymentAt_taskList hwf hvalid hat]

/-- The deployments of a descriptor are those of the graph. -/
theorem mem_finish_deployments (hwf : g.WellFormed) (hvalid : g.Valid o)
    (hplaced : Placed g o g.nodes d) :
    name ∈ (g.finish o (g.explicitDeployments o) d).descriptor.deployments.keys ↔
      name ∈ g.deploymentNames o := by
  rw [OrderedMap.mem_keys_iff, ← Option.isSome_iff_exists, finish_deployments_get? hplaced,
    Option.isSome_map, deploymentAt_isSome_iff hwf hvalid]

/-- So they are those of the graph in some order, each of them once. -/
theorem finish_deployments_perm (hwf : g.WellFormed) (hvalid : g.Valid o)
    (hplaced : Placed g o g.nodes d) :
    (g.finish o (g.explicitDeployments o) d).descriptor.deployments.keys.Perm
      (g.deploymentNames o) :=
  (List.perm_ext_iff_of_nodup (finish_deployments_distinct hplaced)
    (deploymentNames_nodup hwf hvalid)).mpr fun _ => mem_finish_deployments hwf hvalid hplaced

/-- A task is listed by the deployment that it goes to, and by no other. This is what makes the
deployments a partition of the tasks. -/
theorem finish_listedOnce (hwf : g.WellFormed) (hvalid : g.Valid o)
    (hplaced : Placed g o g.nodes d) (hn : n ∈ g.nodes) (ht : o.isTask n = true) (name : String) :
    (∃ x, (g.finish o (g.explicitDeployments o) d).descriptor.deployments.get? name = some x ∧
      n.name ∈ x.taskList.keys) ↔ name = n.host := by
  -- a deployment lists what goes to it, and a task goes to one deployment only
  have hlists : ∀ name, n.name ∈ (o.hosted name g.nodes).map Node.name ↔ name = n.host := by
    intro name
    rw [List.mem_map]
    constructor
    · rintro ⟨m, hm, hname⟩
      obtain ⟨hmem, -, rfl⟩ := CompileOptions.mem_hosted.mp hm
      rw [hwf.eq_of_name hmem hn hname]
    · rintro rfl
      exact ⟨n, CompileOptions.mem_hosted.mpr ⟨hn, ht, rfl⟩, rfl⟩
  constructor
  · rintro ⟨x, hx, hmem⟩
    rw [finish_taskList hwf hvalid hplaced hx] at hmem
    exact (hlists name).mp hmem
  · rintro rfl
    have hself : n ∈ o.hosted n.host g.nodes := CompileOptions.mem_hosted.mpr ⟨hn, ht, rfl⟩
    have hthere : n.host ∈ g.deploymentNames o := by
      rw [mem_deploymentNames_iff hwf]
      -- its deployment is there, since it is that of a deployment node or the task has made it
      rcases mem_hosted_cases hvalid hself with hdep | horphan
      · exact .inl hdep
      · exact .inr ⟨n, horphan, rfl⟩
    obtain ⟨x, hx⟩ := (OrderedMap.mem_keys_iff _ _).mp
      ((mem_finish_deployments hwf hvalid hplaced).mpr hthere)
    refine ⟨x, hx, ?_⟩
    rw [finish_taskList hwf hvalid hplaced hx]
    exact (hlists n.host).mpr rfl

/-- A deployment with several tasks is that of a deployment node. -/
theorem finish_several (hwf : g.WellFormed) (hvalid : g.Valid o) (hplaced : Placed g o g.nodes d)
    {x : Deployment}
    (h : (g.finish o (g.explicitDeployments o) d).descriptor.deployments.get? name = some x)
    (hsize : 1 < x.taskList.size) : ∃ n ∈ g.nodes, o.isDeployment n = true ∧ n.name = name := by
  rw [← OrderedMap.length_keys, finish_taskList hwf hvalid hplaced h, List.length_map] at hsize
  have hthere : name ∈ g.deploymentNames o := by
    rw [← mem_finish_deployments hwf hvalid hplaced, OrderedMap.mem_keys_iff]
    exact ⟨x, h⟩
  -- the deployment of a task without a parent has this task only
  rcases (mem_deploymentNames_iff hwf).mp hthere with hdep | ⟨n, horphan, rfl⟩
  · exact (hwf.hasDeployment_iff name).mp hdep
  · rw [hosted_of_orphan hwf hvalid horphan] at hsize
    simp at hsize

/-- What is said of deployments by their names and by how many tasks they have can be said of the
deployment nodes, if there is nothing to say of those with a single task. Both the count of
deployments with several tasks and the warnings are of this kind. -/
private theorem filterMap_deployments_perm (hwf : g.WellFormed) (hvalid : g.Valid o)
    (hplaced : Placed g o g.nodes d) {β : Type} (say : String → Nat → Option β)
    (hsingle : ∀ name, say name 1 = none) :
    ((g.finish o (g.explicitDeployments o) d).descriptor.deployments.entries.filterMap
        fun e => say e.1 e.2.taskList.size).Perm
      ((g.nodes.filter o.isDeployment).filterMap
        fun n => say n.name (o.hosted n.name g.nodes).length) := by
  let byName (name : String) : Option β := say name (o.hosted name g.nodes).length
  -- the size of a task list is the number of the tasks that go to the deployment
  have hentries : ∀ e ∈ (g.finish o (g.explicitDeployments o) d).descriptor.deployments.entries,
      say e.1 e.2.taskList.size = byName e.1 := by
    intro e he
    have hget := ((finish_deployments_distinct hplaced).get?_eq_some_iff e.1 e.2).mpr he
    have hkeys := finish_taskList hwf hvalid hplaced hget
    rw [← OrderedMap.length_keys, hkeys, List.length_map]
  -- there is nothing to say of the deployments of tasks without a parent
  have horphans : ((g.orphans o).map fun n => implicitDeployment n.name).filterMap byName = [] := by
    rw [List.filterMap_eq_nil_iff]
    intro name hname
    obtain ⟨n, hn, rfl⟩ := List.mem_map.mp hname
    simp only [byName]
    rw [← Node.host_of_orphan (mem_orphans.mp hn).2.2, hosted_of_orphan hwf hvalid hn]
    exact hsingle _
  rw [List.filterMap_congr hentries]
  have hperm := (finish_deployments_perm hwf hvalid hplaced).filterMap byName
  rw [deploymentNames, List.filterMap_append, horphans, List.append_nil, OrderedMap.keys,
    List.filterMap_map, List.filterMap_map] at hperm
  exact hperm

/-- Choosing some elements and changing them can be done in one step. -/
private theorem map_filter_eq_filterMap {α β : Type} (q : α → Bool) (f : α → β) (l : List α) :
    (l.filter q).map f = l.filterMap fun a => if q a then some (f a) else none := by
  induction l with
  | nil => rfl
  | cons a rest ih => cases hq : q a <;> simp [hq, ih]

/-- Deployments with several tasks are counted by the deployment nodes, for no implicit deployment
has more than one. -/
theorem finish_multiTaskCount (hwf : g.WellFormed) (hvalid : g.Valid o)
    (hplaced : Placed g o g.nodes d) :
    (g.finish o (g.explicitDeployments o) d).stats.multiTaskDeployments =
      ((g.nodes.filter o.isDeployment).filter fun n =>
        1 < (o.hosted n.name g.nodes).length).length := by
  -- one is said of each deployment with several tasks, so the number of what is said is their
  -- number
  let say (_ : String) (size : Nat) : Option Unit := if 1 < size then some () else none
  have hsay : ∀ name, say name 1 = none := fun _ => rfl
  have hlength := (filterMap_deployments_perm hwf hvalid hplaced say hsay).length_eq
  have hsome : ∀ (name : String) (size : Nat), (say name size).isSome = decide (1 < size) := by
    intro name size
    simp only [say]
    split <;> simp_all
  simp only [List.length_filterMap_eq_countP, hsome] at hlength
  rw [← List.countP_eq_length_filter]
  refine Eq.trans ?_ hlength
  change (OrderedMap.values _).countP Deployment.isMultiTask = _
  rw [OrderedMap.values, List.countP_map]
  rfl

/-- There is a warning for each deployment node without tasks. An implicit deployment always has its
task, so nothing is said about one. -/
theorem finish_warnings (hwf : g.WellFormed) (hvalid : g.Valid o) (hplaced : Placed g o g.nodes d) :
    (g.finish o (g.explicitDeployments o) d).warnings.Perm
      (((g.nodes.filter o.isDeployment).filter fun n => (o.hosted n.name g.nodes).isEmpty).map
        fun n => "deployment " ++ n.name ++ " has no tasks") := by
  -- a warning is said of each deployment without tasks
  let say (name : String) (size : Nat) : Option String :=
    if size = 0 then some ("deployment " ++ name ++ " has no tasks") else none
  have hsay : ∀ name, say name 1 = none := fun _ => rfl
  have hperm := filterMap_deployments_perm hwf hvalid hplaced say hsay
  have hwarn : Deployment.warning? = fun e => say e.1 e.2.taskList.size := by
    funext e
    simp [Deployment.warning?, say, OrderedMap.isEmpty, OrderedMap.size]
  have hnode : ∀ n : Node, (if (o.hosted n.name g.nodes).isEmpty then
      some ("deployment " ++ n.name ++ " has no tasks") else none) =
        say n.name (o.hosted n.name g.nodes).length := by
    intro n
    simp [say]
  rw [map_filter_eq_filterMap]
  simp only [hnode]
  change (List.filterMap Deployment.warning? _).Perm _
  rw [hwarn]
  exact hperm

end Finish

/-- **The tasks of a compiled graph are partitioned over its deployments.** Every task is listed
once, by the deployment of its parent or by one of its own, and the statistics and the warnings
agree with that. -/
theorem compile_partitions_tasks (hwf : g.WellFormed) (c : Compiled) (h : g.compile o = .ok c) :
    TasksPartitioned g o c := by
  have hvalid := valid_of_compile h
  obtain ⟨d, hplaced, rfl⟩ := compile_placed hwf h
  -- the tasks are listed as their nodes have been placed
  have htasks : (g.finish o (g.explicitDeployments o) d).descriptor.tasks.keys =
      (g.nodes.filter o.isTask).map Node.name := by
    simp [finish, hplaced.tasks, OrderedMap.keys, Function.comp_def]
  have hperm := finish_deployments_perm hwf hvalid hplaced
  exact {
    tasks := htasks
    deployments := hperm
    distinct := finish_deployments_distinct hplaced
    taskLists := fun _ _ hx => finish_taskList hwf hvalid hplaced hx
    listedOnce := fun n hn ht => finish_listedOnce hwf hvalid hplaced hn ht
    listsTasks := by
      intro name x hx task htask
      rw [finish_taskList hwf hvalid hplaced hx] at htask
      obtain ⟨n, hn, rfl⟩ := List.mem_map.mp htask
      obtain ⟨hmem, ht, -⟩ := CompileOptions.mem_hosted.mp hn
      rw [htasks]
      exact List.mem_map_of_mem (List.mem_filter.mpr ⟨hmem, ht⟩)
    several := fun _ _ hx hsize => finish_several hwf hvalid hplaced hx hsize
    taskCount := by
      have hcount := congrArg List.length htasks
      rwa [OrderedMap.length_keys, List.length_map] at hcount
    deploymentCount := by
      have hcount := hperm.length_eq
      rwa [OrderedMap.length_keys] at hcount
    multiTaskCount := finish_multiTaskCount hwf hvalid hplaced
    warnings := finish_warnings hwf hvalid hplaced }

/-- A software graph with a deployment between its two tasks, a deployment without tasks, and a task
without a parent. -/
def cameraGraph : Graph where
  nodes := [
    { name := "camera", domain := "software", typeName := "camera::Task",
      parentName := some "main" },
    { name := "main", typeName := "software::Deployment" },
    { name := "imu", domain := "software", typeName := "imu::Task", parentName := some "main" },
    { name := "logger", domain := "Software", typeName := "logger::Task" },
    { name := "spare", typeName := "software::Deployment" }]
  edges := []
  types := OrderedMap.empty

set_option maxRecDepth 10000 in
/-- The camera graph compiles to three tasks and three deployments, over which they are
partitioned. -/
theorem cameraGraph_partitioned :
    ∃ c, cameraGraph.compile {} = .ok c ∧ c.stats.tasks = 3 ∧ c.stats.deployments = 3 ∧
      TasksPartitioned cameraGraph {} c := by
  have hstats : (cameraGraph.compile {}).toOption.map
      (fun c => (c.stats.tasks, c.stats.deployments)) = some (3, 3) := by decide +kernel
  have hwf : cameraGraph.WellFormed := ⟨by decide, by decide⟩
  -- the numbers are evaluated, and that the graph compiles follows from them
  cases h : cameraGraph.compile {} with
  | error e =>
    rw [h] at hstats
    cases hstats
  | ok c =>
    rw [h] at hstats
    obtain ⟨htasks, hdeployments⟩ := Prod.mk.inj (Option.some.inj hstats)
    exact ⟨c, rfl, htasks, hdeployments, compile_partitions_tasks hwf c h⟩

end ModelGraph
