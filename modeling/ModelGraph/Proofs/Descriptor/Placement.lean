import ModelGraph.Proofs.Descriptor.Valid

/-!
# Placing tasks

Nodes are placed one after the other, and a deployment is made by whichever comes first, its node or
one of its tasks. What is there after some nodes does not depend on that: every deployment is a
function of its settings and of the tasks placed so far.

- `deploymentAt`: the deployment of a name after some nodes.
- `Placed`: the descriptor after some nodes. Every node keeps it.
- `compile_of_valid`, `valid_of_compile`: a graph compiles exactly if it is valid.
-/

namespace ModelGraph

open ModelGraph.Graph

/-! ## Deployments -/

/-- The tasks among some nodes that go to a deployment, in the order of the nodes. -/
def CompileOptions.hosted (o : CompileOptions) (deployment : String) (nodes : List Node) :
    List Node :=
  nodes.filter fun n => o.isTask n && n.host == deployment

/-- The deployment of a deployment node with some tasks, added one after the other as it is done
while nodes are placed. -/
def Deployment.holding (settings : Deployment) (tasks : List Node) : Deployment :=
  tasks.foldl (fun d n => d.addTask settings.processName n.name n.role) settings

/-- The deployment of a name after some nodes have been placed. That of a deployment node is there
as soon as the node or one of its tasks is, and any other is there with the task that it is made
for. It is a function of the placed nodes alone, so it does not matter which of them has made the
deployment. -/
def Graph.deploymentAt (g : Graph) (o : CompileOptions) (placed : List Node) (name : String) :
    Option Deployment :=
  match (g.explicitDeployments o).get? name with
  | some settings =>
    if name ∈ placed.map Node.name ∨ o.hosted name placed ≠ [] then
      some (settings.holding (o.hosted name placed))
    else none
  | none => (o.hosted name placed).head?.map fun n => o.ownDeployment n.name n.role

variable {g : Graph} {o : CompileOptions} {placed : List Node} {d : Descriptor} {n : Node}
  {name : String}

/-- The settings of a deployment are those of the node with its name. -/
theorem Graph.WellFormed.explicitDeployments_get?_eq_some_iff (h : g.WellFormed)
    {settings : Deployment} :
    (g.explicitDeployments o).get? name = some settings ↔
      ∃ n ∈ g.nodes, o.isDeployment n = true ∧ n.name = name ∧
        settings = o.explicitDeployment n := by
  have hkeys := h.filter_entries_nodup o.isDeployment o.explicitDeployment
  -- distinct names, so each deployment has an entry of its own
  rw [explicitDeployments, OrderedMap.ofList_eq_of_nodup hkeys]
  refine (OrderedMap.lookup_eq_some_iff_mem hkeys _ _).trans ?_
  simp only [List.mem_map, List.mem_filter, Prod.mk.injEq]
  constructor
  · rintro ⟨n, ⟨hmem, hdep⟩, hname, hsettings⟩
    exact ⟨n, hmem, hdep, hname, hsettings.symm⟩
  · rintro ⟨n, hmem, hdep, hname, hsettings⟩
    exact ⟨n, ⟨hmem, hdep⟩, hname, hsettings.symm⟩

/-- Only deployment nodes have settings. -/
theorem Graph.WellFormed.explicitDeployments_get?_eq_none_iff (h : g.WellFormed) :
    (g.explicitDeployments o).get? name = none ↔ g.hasDeployment o name = false := by
  rw [← Bool.not_eq_true, h.hasDeployment_iff, Option.eq_none_iff_forall_ne_some]
  simp only [ne_eq, h.explicitDeployments_get?_eq_some_iff]
  constructor
  · rintro hnone ⟨n, hmem, hdep, hname⟩
    exact hnone _ ⟨n, hmem, hdep, hname, rfl⟩
  · rintro hnone settings ⟨n, hmem, hdep, hname, -⟩
    exact hnone ⟨n, hmem, hdep, hname⟩

namespace CompileOptions

/-- A task of a deployment is a node that has been placed and goes there. -/
theorem mem_hosted : n ∈ o.hosted name placed ↔ n ∈ placed ∧ o.isTask n = true ∧ n.host = name := by
  simp [hosted]

/-- A task comes last on its deployment. -/
theorem hosted_concat_self (ht : o.isTask n = true) :
    o.hosted n.host (placed ++ [n]) = o.hosted n.host placed ++ [n] := by
  simp [hosted, ht]

/-- Other deployments keep their tasks. -/
theorem hosted_concat_of_ne (h : o.isTask n = true → n.host ≠ name) :
    o.hosted name (placed ++ [n]) = o.hosted name placed := by
  simpa [hosted] using h

end CompileOptions

/-- A node that is no deployment does not have the name of one. -/
theorem Graph.WellFormed.name_ne_of_hasDeployment (h : g.WellFormed) (hn : n ∈ g.nodes)
    (hdep : o.isDeployment n = false) (hname : g.hasDeployment o name = true) : n.name ≠ name := by
  rintro rfl
  rw [hasDeployment, h.node?_eq_some_iff.mpr ⟨hn, rfl⟩, Option.any_some, hdep] at hname
  cases hname

/-- Nothing changes for a name that a node has nothing to do with: the node neither is the
deployment of this name nor goes to it. -/
theorem deploymentAt_concat_of_ne (hwf : g.WellFormed)
    (hname : g.hasDeployment o name = true → n.name ≠ name)
    (hhost : o.isTask n = true → n.host ≠ name) :
    g.deploymentAt o (placed ++ [n]) name = g.deploymentAt o placed name := by
  unfold deploymentAt
  rw [CompileOptions.hosted_concat_of_ne hhost]
  cases hget : (g.explicitDeployments o).get? name with
  | none => rfl
  | some settings =>
    -- only a deployment node could have settings under this name
    have hdep : g.hasDeployment o name = true := by
      rw [← Bool.not_eq_false, ← hwf.explicitDeployments_get?_eq_none_iff, hget]
      simp
    have hne : ¬ name = n.name := fun heq => hname hdep heq.symm
    simp [hne]

/-- A deployment that is not there yet is one without tasks. -/
theorem deploymentAt_getD {settings : Deployment}
    (hget : (g.explicitDeployments o).get? name = some settings) :
    (g.deploymentAt o placed name).getD settings = settings.holding (o.hosted name placed) := by
  simp only [deploymentAt, hget]
  split
  · rfl
  · rename_i hnot
    -- neither its node nor a task of it has been placed
    have hnone : o.hosted name placed = [] :=
      Decidable.byContradiction fun h => hnot (.inr h)
    rw [hnone]
    rfl

/-! ## Placing a node -/

/-- The descriptor after some nodes have been placed: the invariant of the loop over the nodes.
Every kind of node keeps it, as is shown for each of them below, and after the last node it says
what the whole descriptor is. -/
structure Placed (g : Graph) (o : CompileOptions) (placed : List Node) (d : Descriptor) : Prop where
  tasks : d.tasks = ⟨(placed.filter o.isTask).map fun n => (n.name, n.taskEntry)⟩
  distinct : d.deployments.Distinct
  deployments : ∀ name, d.deployments.get? name = g.deploymentAt o placed name

namespace Placed

/-- Before the first node there are neither tasks nor deployments. -/
theorem start : Placed g o [] Descriptor.empty where
  tasks := rfl
  distinct := OrderedMap.distinct_empty
  deployments name := by
    unfold deploymentAt
    cases (g.explicitDeployments o).get? name <;> rfl

/-- The node of a deployment makes the deployment, unless one of its tasks has made it. In both
cases the deployment is there afterwards, with the tasks seen so far. -/
theorem deployment (h : Placed g o placed d) (hwf : g.WellFormed) (hn : n ∈ g.nodes)
    (hdep : o.isDeployment n = true) :
    Placed g o (placed ++ [n])
      { d with deployments := d.deployments.insertIfNew n.name (o.explicitDeployment n) } := by
  have ht : o.isTask n = false := by simp [CompileOptions.isTask, hdep]
  have hhost : ∀ k, o.isTask n = true → n.host ≠ k := fun k htask => by
    rw [ht] at htask
    cases htask
  refine ⟨by simp [h.tasks, ht], h.distinct.insertIfNew _ _, fun name => ?_⟩
  simp only [OrderedMap.get?_insertIfNew, h.deployments]
  by_cases hname : name = n.name
  · -- it may be there already with some tasks, which it keeps
    subst hname
    have hget : (g.explicitDeployments o).get? n.name = some (o.explicitDeployment n) :=
      hwf.explicitDeployments_get?_eq_some_iff.mpr ⟨n, hn, hdep, rfl, rfl⟩
    rw [if_pos rfl, deploymentAt_getD hget, deploymentAt, hget,
      CompileOptions.hosted_concat_of_ne (hhost _)]
    simp
  · rw [if_neg hname, deploymentAt_concat_of_ne hwf (fun _ heq => hname heq.symm) (hhost name)]

/-- A node that is neither a deployment nor a task changes nothing. -/
theorem other (h : Placed g o placed d) (hwf : g.WellFormed) (hn : n ∈ g.nodes)
    (hdep : o.isDeployment n = false) (ht : o.isTask n = false) : Placed g o (placed ++ [n]) d := by
  refine ⟨by simp [h.tasks, ht], h.distinct, fun name => ?_⟩
  rw [h.deployments, deploymentAt_concat_of_ne hwf (hwf.name_ne_of_hasDeployment hn hdep)]
  intro htask
  rw [ht] at htask
  cases htask

/-- The entry of a new task comes last. -/
private theorem tasks_concat (h : Placed g o placed d) (ht : o.isTask n = true)
    (hnew : n.name ∉ placed.map Node.name) :
    d.tasks.insert n.name n.taskEntry =
      ⟨((placed ++ [n]).filter o.isTask).map fun n => (n.name, n.taskEntry)⟩ := by
  -- the tasks so far are those of the nodes in front
  have hkey : n.name ∉ d.tasks.keys := by
    rw [h.tasks]
    intro hmem
    simp only [OrderedMap.keys, List.map_map, List.mem_map, List.mem_filter] at hmem
    obtain ⟨m, ⟨hm, -⟩, hname⟩ := hmem
    exact hnew (List.mem_map.mpr ⟨m, hm, hname⟩)
  rw [OrderedMap.insert_of_new hkey, h.tasks]
  simp [ht]

/-- A task with a parent is added to the deployment of its parent, which is made if it is not there
yet. -/
theorem child (h : Placed g o placed d) (hwf : g.WellFormed) (hn : n ∈ g.nodes)
    (hnew : n.name ∉ placed.map Node.name) (ht : o.isTask n = true) {parent : String}
    (hparent : n.parent? = some parent) {settings : Deployment}
    (hget : (g.explicitDeployments o).get? parent = some settings) :
    Placed g o (placed ++ [n])
      { d with
        tasks := d.tasks.insert n.name n.taskEntry
        deployments := (d.deployments.insertIfNew parent settings).modify parent
          (·.addTask settings.processName n.name n.role) } := by
  have hhost : n.host = parent := Node.host_of_parent hparent
  have hdep := CompileOptions.isDeployment_of_isTask ht
  refine ⟨tasks_concat h ht hnew, (h.distinct.insertIfNew _ _).modify _ _, fun name => ?_⟩
  simp only [OrderedMap.get?_modify, OrderedMap.get?_insertIfNew, h.deployments]
  by_cases hname : name = parent
  · -- the task is added to those that the deployment has, be it there or new
    subst hname
    have hhosted : o.hosted name (placed ++ [n]) = o.hosted name placed ++ [n] := by
      rw [← hhost]
      exact CompileOptions.hosted_concat_self ht
    simp only [if_true, deploymentAt_getD hget, Option.map_some]
    simp [deploymentAt, hget, hhosted, Deployment.holding]
  -- a deployment with another name is left as it is
  · rw [if_neg hname, if_neg hname, deploymentAt_concat_of_ne hwf
      (hwf.name_ne_of_hasDeployment hn hdep) fun _ heq => hname (heq.symm.trans hhost)]

/-- A task without a parent gets a deployment of its own, which no other task goes to. Its name was
free, since validation has seen to that. -/
theorem orphan (h : Placed g o placed d) (hwf : g.WellFormed) (hvalid : g.Valid o)
    (hplaced : ∀ m ∈ placed, m ∈ g.nodes) (hn : n ∈ g.nodes)
    (hnew : n.name ∉ placed.map Node.name) (ht : o.isTask n = true) (hparent : n.parent? = none) :
    Placed g o (placed ++ [n])
      { d with
        tasks := d.tasks.insert n.name n.taskEntry
        deployments :=
          d.deployments.insert (implicitDeployment n.name) (o.ownDeployment n.name n.role) } := by
  have hhost : n.host = implicitDeployment n.name := Node.host_of_orphan hparent
  have hfree : g.hasDeployment o n.host = false := hhost ▸ (hvalid n hn ht).own hparent
  have hdep := CompileOptions.isDeployment_of_isTask ht
  -- a task that goes to the same deployment has a deployment node for a parent, or the same name
  have hnone : o.hosted n.host placed = [] := by
    refine List.eq_nil_iff_forall_not_mem.mpr fun m hm => ?_
    obtain ⟨hm, hmt, hmhost⟩ := CompileOptions.mem_hosted.mp hm
    cases hmparent : m.parent? with
    | some parent =>
      have hhas := (hvalid m (hplaced m hm) hmt).parent parent hmparent
      rw [← Node.host_of_parent hmparent, hmhost, hfree] at hhas
      cases hhas
    | none =>
      rw [Node.host_of_orphan hmparent, hhost] at hmhost
      exact hnew (List.mem_map.mpr ⟨m, hm, implicitDeployment_injective hmhost⟩)
  refine ⟨tasks_concat h ht hnew, h.distinct.insert _ _, fun name => ?_⟩
  simp only [OrderedMap.get?_insert, h.deployments, ← hhost]
  by_cases hname : name = n.host
  · subst hname
    rw [if_pos rfl, deploymentAt, hwf.explicitDeployments_get?_eq_none_iff.mpr hfree,
      CompileOptions.hosted_concat_self ht, hnone]
    rfl
  -- a deployment with another name is left as it is
  · rw [if_neg hname, deploymentAt_concat_of_ne hwf (hwf.name_ne_of_hasDeployment hn hdep)
      fun _ heq => hname heq.symm]

/-- **A node of a valid graph is placed without fail**, and what is there afterwards is what its
nodes so far determine. There is a case for each kind of node. -/
theorem step (h : Placed g o placed d) (hwf : g.WellFormed) (hvalid : g.Valid o)
    {roles : OrderedMap String} (hroles : g.roles o = .ok roles)
    (hplaced : ∀ m ∈ placed, m ∈ g.nodes) (hn : n ∈ g.nodes)
    (hnew : n.name ∉ placed.map Node.name) :
    ∃ d', d.placeNode o (g.explicitDeployments o) roles n = .ok d' ∧
      Placed g o (placed ++ [n]) d' := by
  unfold Descriptor.placeNode
  cases hdep : o.isDeployment n with
  | true =>
    rw [hwf.explicitDeployments_get?_eq_some_iff.mpr ⟨n, hn, hdep, rfl, rfl⟩]
    exact ⟨_, rfl, h.deployment hwf hn hdep⟩
  | false =>
    have hnone : (g.explicitDeployments o).get? n.name = none := by
      rw [hwf.explicitDeployments_get?_eq_none_iff, ← Bool.not_eq_true]
      exact fun hhas => hwf.name_ne_of_hasDeployment hn hdep hhas rfl
    simp only [hnone]
    -- what is no deployment is a task, or a node of another domain
    cases ht : o.isTask n with
    | false => exact ⟨d, rfl, h.other hwf hn hdep ht⟩
    | true =>
      simp only [if_true, hwf.roles_get? hn ht hroles, Descriptor.placeTask]
      cases hparent : n.parent? with
      | none => exact ⟨_, rfl, h.orphan hwf hvalid hplaced hn hnew ht hparent⟩
      | some parent =>
        cases hget : (g.explicitDeployments o).get? parent with
        | some settings =>
          simp only [hget]
          exact ⟨_, rfl, h.child hwf hn hnew ht hparent hget⟩
        | none =>
          -- validation has found the parent
          have hhas := (hvalid n hn ht).parent parent hparent
          rw [hwf.explicitDeployments_get?_eq_none_iff.mp hget] at hhas
          cases hhas

end Placed

/-! ## Placing all nodes -/

/-- The nodes that are left are placed without fail, if those before them have been. The induction
is over what is left, with `Placed` as the invariant. -/
private theorem foldlM_placeNode (hwf : g.WellFormed) (hvalid : g.Valid o)
    {roles : OrderedMap String} (hroles : g.roles o = .ok roles) (rest : List Node) :
    ∀ (placed : List Node) (d : Descriptor), g.nodes = placed ++ rest → Placed g o placed d →
      ∃ d', rest.foldlM (Descriptor.placeNode o (g.explicitDeployments o) roles) d = .ok d' ∧
        Placed g o g.nodes d' := by
  induction rest with
  | nil =>
    intro placed d hnodes h
    rw [List.append_nil] at hnodes
    exact ⟨d, rfl, hnodes ▸ h⟩
  | cons n rest ih =>
    intro placed d hnodes h
    have hplaced : ∀ m ∈ placed, m ∈ g.nodes := fun m hm => by
      rw [hnodes]
      exact List.mem_append_left _ hm
    have hn : n ∈ g.nodes := by
      rw [hnodes]
      simp
    -- names are unique, so this node has not been placed before
    have hnew : n.name ∉ placed.map Node.name := by
      have hunique := hwf.1
      rw [hnodes, List.map_append, List.map_cons, List.nodup_append] at hunique
      exact fun hmem => hunique.2.2 _ hmem _ List.mem_cons_self rfl
    obtain ⟨d', hplace, h'⟩ := h.step hwf hvalid hroles hplaced hn hnew
    rw [List.foldlM_cons, hplace]
    exact ih (placed ++ [n]) d' (by simp [hnodes]) h'

/-- **The nodes of a valid graph are placed without fail.** -/
theorem placeNodes_placed (hwf : g.WellFormed) (hvalid : g.Valid o) {roles : OrderedMap String}
    (hroles : g.roles o = .ok roles) :
    ∃ d, g.placeNodes o (g.explicitDeployments o) roles = .ok d ∧ Placed g o g.nodes d :=
  foldlM_placeNode hwf hvalid hroles g.nodes [] Descriptor.empty rfl .start

/-- A valid graph compiles to what its placed nodes give. -/
theorem compile_of_valid (hwf : g.WellFormed) (hvalid : g.Valid o) :
    ∃ d, Placed g o g.nodes d ∧
      g.compile o = .ok (g.finish o (g.explicitDeployments o) d) := by
  have hroles := roles_eq_ok_iff.mpr ⟨hvalid, rfl⟩
  obtain ⟨d, hplace, hplaced⟩ := placeNodes_placed hwf hvalid hroles
  refine ⟨d, hplaced, ?_⟩
  simp only [compile, hroles, hplace, bind, Except.bind]

/-- A graph that compiles is valid. -/
theorem valid_of_compile {c : Compiled} (h : g.compile o = .ok c) : g.Valid o := by
  obtain ⟨roles, hroles, -⟩ := bind_eq_ok.mp h
  exact (roles_eq_ok_iff.mp hroles).1

/-- What a graph compiles to is what its placed nodes give. -/
theorem compile_placed (hwf : g.WellFormed) {c : Compiled} (h : g.compile o = .ok c) :
    ∃ d, Placed g o g.nodes d ∧ c = g.finish o (g.explicitDeployments o) d := by
  obtain ⟨d, hplaced, hcompile⟩ := compile_of_valid hwf (valid_of_compile h)
  rw [hcompile] at h
  cases h
  exact ⟨d, hplaced, rfl⟩

end ModelGraph
