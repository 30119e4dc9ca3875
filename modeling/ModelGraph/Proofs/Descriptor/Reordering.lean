import ModelGraph.Proofs.Descriptor.Connections
import ModelGraph.Proofs.Descriptor.Contents
import ModelGraph.Proofs.Descriptor.Staging

/-!
# Reordered graphs

The order of the nodes of a graph decides in which order a descriptor lists its tasks and its
deployments, and nothing else. What is compared here is therefore maps without their order.

- `OrderedMap.Alike`: two maps with the same keys and with values that are alike.
- `Graph.Reordered`: two graphs that differ in the order of their nodes at most.
- `Deployment.ofTasks_alike`: a deployment does not depend on the order of its tasks.
- `compile_reordered`: both graphs compile or neither does, and what they compile to is alike.
-/

namespace ModelGraph

open ModelGraph.Graph

/-! ## Maps without their order -/

namespace OrderedMap

variable {α : Type} {same : α → α → Prop} {m m' : OrderedMap α}

/-- Two maps have the same keys, in whatever order, and the values of every key are alike. How
values are alike is a parameter, since deployments contain maps themselves. -/
structure Alike (same : α → α → Prop) (m m' : OrderedMap α) : Prop where
  keys : m.keys.Perm m'.keys
  values : ∀ key, Option.Rel same (m.get? key) (m'.get? key)

/-- Where no key comes twice, the keys are the same if the values of every key are alike. -/
theorem Distinct.alike (h : m.Distinct) (h' : m'.Distinct)
    (hvalues : ∀ key, Option.Rel same (m.get? key) (m'.get? key)) : m.Alike same m' := by
  refine ⟨(List.perm_ext_iff_of_nodup h h').mpr fun key => ?_, hvalues⟩
  rw [← not_iff_not, ← get?_eq_none_iff, ← get?_eq_none_iff]
  have hkey := hvalues key
  generalize m.get? key = value, m'.get? key = value' at hkey
  cases hkey <;> simp

/-- Entries with distinct keys make the same map in every order. -/
theorem alike_of_perm {l l' : List (String × α)} (hperm : l.Perm l')
    (hkeys : (l.map Prod.fst).Nodup) : (⟨l⟩ : OrderedMap α).Alike Eq ⟨l'⟩ := by
  have hkeys' : (l'.map Prod.fst).Nodup := (hperm.map Prod.fst).nodup_iff.mp hkeys
  refine Distinct.alike hkeys hkeys' fun key => ?_
  -- what is found under a distinct key is the entry with it, wherever it stands
  have hget : (⟨l⟩ : OrderedMap α).get? key = (⟨l'⟩ : OrderedMap α).get? key :=
    Option.ext fun value => by
      rw [Distinct.get?_eq_some_iff hkeys, Distinct.get?_eq_some_iff hkeys']
      exact hperm.mem_iff
  rw [hget]
  cases (⟨l'⟩ : OrderedMap α).get? key with
  | none => exact .none
  | some value => exact .some rfl

/-- Changing all values in the same way keeps equal maps equal. -/
theorem Alike.mapValues {β : Type} (h : m.Alike Eq m') (f : String → α → β) :
    (m.mapValues f).Alike Eq (m'.mapValues f) := by
  refine ⟨by simpa using h.keys, fun key => ?_⟩
  rw [get?_mapValues, get?_mapValues]
  have hkey := h.values key
  generalize m.get? key = value, m'.get? key = value' at hkey
  cases hkey with
  | none => exact .none
  | some heq => exact .some (congrArg (f key) heq)

end OrderedMap

/-! ## Descriptors without their order -/

/-- Two deployments with the same settings, which list the same tasks under the same names. -/
structure Deployment.Alike (d d' : Deployment) : Prop where
  deployer : d.deployer = d'.deployer
  processName : d.processName = d'.processName
  hostId : d.hostId = d'.hostId
  taskList : d.taskList.Alike Eq d'.taskList

/-- Two descriptors with the same tasks, with alike deployments and with the same list of
connections. -/
structure Descriptor.Alike (d d' : Descriptor) : Prop where
  deployments : d.deployments.Alike Deployment.Alike d'.deployments
  tasks : d.tasks.Alike Eq d'.tasks
  connections : d.connections = d'.connections

/-- The first stages of alike descriptors are alike. -/
theorem Descriptor.Alike.staged {d d' : Descriptor} (h : d.Alike d') (baseType state : String) :
    (d.staged baseType state).Alike (d'.staged baseType state) where
  deployments := h.deployments
  tasks := h.tasks.mapValues fun _ t =>
    if t.typeName = baseType then t else { t with state := some state }
  connections := rfl

/-- Two compiled graphs with alike descriptors, alike first stages or none, the same statistics, and
the same warnings in whatever order. -/
structure Compiled.Alike (c c' : Compiled) : Prop where
  descriptor : c.descriptor.Alike c'.descriptor
  pre : Option.Rel Descriptor.Alike c.pre c'.pre
  stats : c.stats = c'.stats
  warnings : c.warnings.Perm c'.warnings

/-! ## Reordered graphs -/

/-- Two graphs with the same nodes, in whatever order, and the same list of edges. The order of the
edges stays, since it is the order of the connections. -/
structure Graph.Reordered (g g' : Graph) : Prop where
  nodes : g.nodes.Perm g'.nodes
  edges : g.edges = g'.edges

variable {g g' : Graph} {o : CompileOptions} {n : Node} {name : String}

namespace Graph.Reordered

/-- Reordering can be undone. -/
theorem symm (h : g.Reordered g') : g'.Reordered g := ⟨h.nodes.symm, h.edges.symm⟩

/-- Reordering keeps names unique. -/
theorem wellFormed (h : g.Reordered g') (hwf : g.WellFormed) : g'.WellFormed :=
  ⟨(h.nodes.map Node.name).nodup_iff.mp hwf.1, h.edges ▸ hwf.2⟩

/-- The node with a name is the same. -/
theorem node?_eq (h : g.Reordered g') (hwf : g.WellFormed) (name : String) :
    g'.node? name = g.node? name :=
  Option.ext fun n => by
    rw [hwf.node?_eq_some_iff, (h.wellFormed hwf).node?_eq_some_iff, h.nodes.mem_iff]

/-- The deployment nodes are the same. -/
theorem hasDeployment_eq (h : g.Reordered g') (hwf : g.WellFormed) :
    g'.hasDeployment o name = g.hasDeployment o name := by
  rw [hasDeployment, hasDeployment, h.node?_eq hwf]

/-- The same edges lead from task to task. -/
theorem joinsTasks_eq (h : g.Reordered g') (hwf : g.WellFormed) :
    g'.joinsTasks o = g.joinsTasks o := by
  funext e
  simp only [joinsTasks, hasTask, h.node?_eq hwf]

/-- Validity does not depend on the order of the nodes. -/
theorem valid (h : g.Reordered g') (hwf : g.WellFormed) (hvalid : g.Valid o) : g'.Valid o := by
  intro n hn ht
  have hn' := hvalid n (h.nodes.mem_iff.mpr hn) ht
  exact ⟨fun p hparent => (h.hasDeployment_eq hwf).trans (hn'.parent p hparent),
    fun hparent => (h.hasDeployment_eq hwf).trans (hn'.own hparent), hn'.segments⟩

end Graph.Reordered

/-! ## Deployments -/

/-- **A deployment does not depend on the order of its tasks**, except for the order in which it
lists them. -/
theorem Deployment.ofTasks_alike {settings : Deployment}
    (hempty : settings.taskList = OrderedMap.empty) {tasks tasks' : List Node}
    (hperm : tasks.Perm tasks') (hnames : (tasks.map Node.name).Nodup) :
    (settings.ofTasks tasks).Alike (settings.ofTasks tasks') := by
  have hlength := hperm.length_eq
  -- a deployment differs for no task, for one task and for several, so these are the cases
  rcases tasks with _ | ⟨t, _ | ⟨second, rest⟩⟩
  · rw [hperm.nil_eq.symm, ofTasks]
    refine ⟨rfl, rfl, rfl, ?_⟩
    rw [hempty]
    exact OrderedMap.alike_of_perm .nil List.nodup_nil
  · -- a single task has no other order
    rw [← List.singleton_perm.mp hperm]
    exact ⟨rfl, rfl, rfl, OrderedMap.alike_of_perm (.refl _) (List.nodup_singleton _)⟩
  · -- there are several tasks on the other side too, so it takes the same branch of `ofTasks`
    obtain ⟨t', second', rest', rfl⟩ : ∃ t' second' rest', tasks' = t' :: second' :: rest' := by
      rcases tasks' with _ | ⟨t', _ | ⟨second', rest'⟩⟩
      · simp at hlength
      · simp at hlength
      · exact ⟨t', second', rest', rfl⟩
    refine ⟨rfl, rfl, rfl, OrderedMap.alike_of_perm (hperm.map _) ?_⟩
    rw [List.map_map]
    exact hnames

section Finish

variable {d d' : Descriptor}

/-- The deployments of reordered graphs are alike. Each of them is told by its settings and its
tasks, and these are the same up to their order. -/
theorem finish_deployments_alike (h : g.Reordered g') (hwf : g.WellFormed) (hvalid : g.Valid o)
    (hplaced : Placed g o g.nodes d) (hplaced' : Placed g' o g'.nodes d') :
    (g.finish o (g.explicitDeployments o) d).descriptor.deployments.Alike Deployment.Alike
      (g'.finish o (g'.explicitDeployments o) d').descriptor.deployments := by
  have hwf' := h.wellFormed hwf
  have hvalid' := h.valid hwf hvalid
  refine OrderedMap.Distinct.alike (finish_deployments_distinct hplaced)
    (finish_deployments_distinct hplaced') fun name => ?_
  by_cases hname : name ∈ g.deploymentNames o
  · rcases List.mem_append.mp hname with hmem | hmem
    · -- the deployment of a deployment node, which has the same children
      obtain ⟨n, hn, rfl⟩ := List.mem_map.mp hmem
      obtain ⟨hn, hdep⟩ := List.mem_filter.mp hn
      rw [finish_ofNode hwf hvalid hplaced hn hdep,
        finish_ofNode hwf' hvalid' hplaced' (h.nodes.mem_iff.mp hn) hdep]
      have hchildren : (g.children o n.name).Perm (g'.children o n.name) := h.nodes.filter _
      exact .some (Deployment.ofTasks_alike rfl hchildren (hwf.filter_names_nodup _))
    · -- the deployment of a task without a parent
      obtain ⟨n, horphan, rfl⟩ := List.mem_map.mp hmem
      have horphan' : n ∈ g'.orphans o := (h.nodes.filter _).mem_iff.mp horphan
      rw [finish_ofOrphan hwf hvalid hplaced horphan,
        finish_ofOrphan hwf' hvalid' hplaced' horphan']
      exact .some ⟨rfl, rfl, rfl, OrderedMap.alike_of_perm (.refl _) (List.nodup_singleton _)⟩
  · have hnames : (g.deploymentNames o).Perm (g'.deploymentNames o) :=
      ((h.nodes.filter _).map _).append ((h.nodes.filter _).map _)
    -- no deployment has this name in either descriptor
    have hname' : name ∉ g'.deploymentNames o := fun hmem => hname (hnames.mem_iff.mpr hmem)
    rw [← mem_finish_deployments hwf hvalid hplaced, ← OrderedMap.get?_eq_none_iff] at hname
    rw [← mem_finish_deployments hwf' hvalid' hplaced', ← OrderedMap.get?_eq_none_iff] at hname'
    rw [hname, hname']
    exact .none

/-- The same tasks have been placed, with the same entries. -/
theorem Placed.tasks_alike (hplaced : Placed g o g.nodes d) (hplaced' : Placed g' o g'.nodes d')
    (h : g.Reordered g') (hwf : g.WellFormed) : d.tasks.Alike Eq d'.tasks := by
  rw [hplaced.tasks, hplaced'.tasks]
  exact OrderedMap.alike_of_perm ((h.nodes.filter _).map _) (hwf.filter_entries_nodup _ _)

/-- The descriptors of reordered graphs are alike. -/
theorem finish_descriptor_alike (h : g.Reordered g') (hwf : g.WellFormed) (hvalid : g.Valid o)
    (hplaced : Placed g o g.nodes d) (hplaced' : Placed g' o g'.nodes d') :
    (g.finish o (g.explicitDeployments o) d).descriptor.Alike
      (g'.finish o (g'.explicitDeployments o) d').descriptor where
  deployments := finish_deployments_alike h hwf hvalid hplaced hplaced'
  tasks := show d.tasks.Alike Eq d'.tasks from hplaced.tasks_alike hplaced' h hwf
  connections := by
    rw [finish_connections hwf hplaced, finish_connections (h.wellFormed hwf) hplaced',
      h.joinsTasks_eq hwf, h.edges]

/-- The first stages of reordered graphs are alike: both have a task of the base type, or neither
has. -/
theorem finish_pre_alike (h : g.Reordered g') (hwf : g.WellFormed) (hvalid : g.Valid o)
    (hplaced : Placed g o g.nodes d) (hplaced' : Placed g' o g'.nodes d') :
    Option.Rel Descriptor.Alike (g.finish o (g.explicitDeployments o) d).pre
      (g'.finish o (g'.explicitDeployments o) d').pre := by
  rw [finish_pre hplaced, finish_pre hplaced']
  simp only [h.nodes.mem_iff]
  split
  · exact .some ((finish_descriptor_alike h hwf hvalid hplaced hplaced').staged _ _)
  · exact .none

/-- Reordered graphs are counted in the same way, since a permutation keeps all numbers. -/
theorem finish_stats_eq (h : g.Reordered g') (hwf : g.WellFormed) (hvalid : g.Valid o)
    (hplaced : Placed g o g.nodes d) (hplaced' : Placed g' o g'.nodes d') :
    (g.finish o (g.explicitDeployments o) d).stats =
      (g'.finish o (g'.explicitDeployments o) d').stats := by
  have hwf' := h.wellFormed hwf
  have hvalid' := h.valid hwf hvalid
  have hdeployments := (finish_deployments_alike h hwf hvalid hplaced hplaced').keys.length_eq
  have htasks := (hplaced.tasks_alike hplaced' h hwf).keys.length_eq
  -- each statistic counts a list of which the other graph has a permutation
  have hmulti := finish_multiTaskCount hwf hvalid hplaced
  have hmulti' := finish_multiTaskCount hwf' hvalid' hplaced'
  have hhosted : ∀ n : Node, (o.hosted n.name g.nodes).length = (o.hosted n.name g'.nodes).length :=
    fun n => (h.nodes.filter _).length_eq
  have hmultiCount : ((g.nodes.filter o.isDeployment).filter fun n =>
      1 < (o.hosted n.name g.nodes).length).length =
        ((g'.nodes.filter o.isDeployment).filter fun n =>
          1 < (o.hosted n.name g'.nodes).length).length := by
    simp only [hhosted]
    exact ((h.nodes.filter _).filter _).length_eq
  have hbase : d.tasks.values.countP (·.typeName == o.baseTaskType) =
      d'.tasks.values.countP (·.typeName == o.baseTaskType) := by
    rw [hplaced.tasks, hplaced'.tasks]
    exact (((h.nodes.filter _).map _).map _).countP_eq _
  have hjoins : d.joinsTasks = d'.joinsTasks := by
    rw [hplaced.joinsTasks_eq hwf, hplaced'.joinsTasks_eq hwf', h.joinsTasks_eq hwf]
  rw [← hmulti, ← hmulti'] at hmultiCount
  simp only [OrderedMap.length_keys] at hdeployments htasks
  simp only [finish] at hdeployments hmultiCount ⊢
  simp only [CompileStats.mk.injEq]
  exact ⟨h.nodes.length_eq, by rw [h.edges], htasks, hdeployments, hmultiCount,
    by rw [hjoins, h.edges], by rw [hjoins, h.edges], hbase⟩

/-- The same deployment nodes of reordered graphs have no tasks. -/
theorem finish_warnings_perm (h : g.Reordered g') (hwf : g.WellFormed) (hvalid : g.Valid o)
    (hplaced : Placed g o g.nodes d) (hplaced' : Placed g' o g'.nodes d') :
    (g.finish o (g.explicitDeployments o) d).warnings.Perm
      (g'.finish o (g'.explicitDeployments o) d').warnings := by
  -- a deployment is idle if no task is hosted there, which no order changes
  have hidle : ∀ n : Node, (o.hosted n.name g.nodes).isEmpty = (o.hosted n.name g'.nodes).isEmpty :=
    fun n => by
      have hperm : (o.hosted n.name g.nodes).Perm (o.hosted n.name g'.nodes) := h.nodes.filter _
      rw [Bool.eq_iff_iff, List.isEmpty_iff_length_eq_zero, List.isEmpty_iff_length_eq_zero,
        hperm.length_eq]
  refine (finish_warnings hwf hvalid hplaced).trans (.trans ?_
    (finish_warnings (h.wellFormed hwf) (h.valid hwf hvalid) hplaced').symm)
  simp only [hidle]
  exact ((h.nodes.filter _).filter _).map _

end Finish

/-! ## Compilation -/

/-- **Compilation does not depend on the order of the nodes**, except for the order in which tasks,
deployments and warnings are listed: of two graphs that differ in it at most, both compile or
neither does, and what they compile to is alike. Which error an invalid graph is refused with may
depend on the order, as it is that of the first task with a fault. -/
theorem compile_reordered (hwf : g.WellFormed) (hnodes : g.nodes.Perm g'.nodes)
    (hedges : g.edges = g'.edges) (o : CompileOptions) :
    ((∃ c, g.compile o = .ok c) ↔ ∃ c', g'.compile o = .ok c') ∧
      ∀ c c', g.compile o = .ok c → g'.compile o = .ok c' → c.Alike c' := by
  have h : g.Reordered g' := ⟨hnodes, hedges⟩
  have hwf' := h.wellFormed hwf
  constructor
  · constructor
    · rintro ⟨c, hc⟩
      obtain ⟨d, -, hcompile⟩ := compile_of_valid hwf' (h.valid hwf (valid_of_compile hc))
      exact ⟨_, hcompile⟩
    · rintro ⟨c, hc⟩
      obtain ⟨d, -, hcompile⟩ := compile_of_valid hwf (h.symm.valid hwf' (valid_of_compile hc))
      exact ⟨_, hcompile⟩
  · intro c c' hc hc'
    -- both descriptors are what their placed nodes determine, and these are the same nodes
    have hvalid := valid_of_compile hc
    obtain ⟨d, hplaced, rfl⟩ := compile_placed hwf hc
    obtain ⟨d', hplaced', rfl⟩ := compile_placed hwf' hc'
    exact {
      descriptor := finish_descriptor_alike h hwf hvalid hplaced hplaced'
      pre := finish_pre_alike h hwf hvalid hplaced hplaced'
      stats := finish_stats_eq h hwf hvalid hplaced hplaced'
      warnings := finish_warnings_perm h hwf hvalid hplaced hplaced' }

/-- A dock with a deployment between its two tasks, a task of the base type without a parent, and a
deployment without tasks. -/
def dockGraph : Graph where
  nodes := [
    { name := "camera", domain := "software", typeName := "camera::Task",
      parentName := some "main" },
    { name := "main", typeName := "software::Deployment" },
    { name := "bridge", domain := "software", typeName := "mars::core::Task",
      modelName := "mars::Task" },
    { name := "imu", domain := "software", typeName := "imu::Task", parentName := some "main" },
    { name := "spare", typeName := "software::Deployment" }]
  edges := [{ ends := ⟨"camera", "image", "bridge", "image"⟩ }]
  types := OrderedMap.empty

set_option maxRecDepth 10000 in
/-- Read backwards, the dock lists its tasks the other way round and is otherwise the same. -/
theorem dockGraph_reversed :
    let backwards : Graph := { dockGraph with nodes := dockGraph.nodes.reverse }
    dockGraph.WellFormed ∧ dockGraph.nodes.Perm backwards.nodes ∧
      ∃ c c', dockGraph.compile {} = .ok c ∧ backwards.compile {} = .ok c' ∧
        c.descriptor.tasks.keys = ["camera", "bridge", "imu"] ∧
        c'.descriptor.tasks.keys = ["imu", "bridge", "camera"] ∧ c.Alike c' := by
  intro backwards
  have hwf : dockGraph.WellFormed := ⟨by decide, by decide⟩
  have hperm : dockGraph.nodes.Perm backwards.nodes := (List.reverse_perm _).symm
  have htasks : (dockGraph.compile {}).toOption.map (·.descriptor.tasks.keys) =
      some ["camera", "bridge", "imu"] := by decide +kernel
  have htasks' : (backwards.compile {}).toOption.map (·.descriptor.tasks.keys) =
      some ["imu", "bridge", "camera"] := by decide +kernel
  obtain ⟨haccepts, halike⟩ := compile_reordered hwf hperm rfl {}
  cases h : dockGraph.compile {} with
  | error e =>
    rw [h] at htasks
    cases htasks
  | ok c =>
    -- one order compiles, so the other one does
    obtain ⟨c', h'⟩ := haccepts.mp ⟨c, h⟩
    rw [h] at htasks
    rw [h'] at htasks'
    exact ⟨hwf, hperm, c, c', rfl, h', Option.some.inj htasks, Option.some.inj htasks',
      halike c c' h h'⟩

end ModelGraph
