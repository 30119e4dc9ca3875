import Mathlib.Data.List.Induction
import ModelGraph.Proofs.Descriptor.Partition
import ModelGraph.Proofs.Tree.Trim

/-!
# Contents of deployments

A compiled deployment depends on nothing but its settings and its tasks. While nodes are placed, the
process name and the task list of a deployment are rewritten with every task that comes, and the
deployment may be there before its node is. At the end none of this is to be seen.

- `Node.setting?`: what a deployment node says about its deployment.
- `Deployment.ofTasks`: the deployment of some settings and some tasks.
- `Deployment.holding_eq`: a deployment in the course of placing, after any number of tasks.
- `compile_deployments_determined`: the deployments of a descriptor in terms of these.
-/

namespace ModelGraph

open ModelGraph.Graph

/-! ## Settings -/

/-- A setting of a deployment node: the text of the leaf under a key of the `configuration` in its
trimmed data. -/
def Node.setting? (n : Node) (key : String) : Option String :=
  (((n.data.map Tree.trim).bind (·.field? "configuration")).bind (·.field? key)).bind Tree.text?

/-- A setting is never blank, since trimming has dropped the leaves that are. So a blank setting
counts as none, and the default stands in for it. -/
theorem Node.setting?_not_isBlank {n : Node} {key text : String} (h : n.setting? key = some text) :
    Text.isBlank text.toList = false := by
  obtain ⟨value, hvalue, htext⟩ := Option.bind_eq_some_iff.mp h
  obtain ⟨configuration, hconfiguration, hfield⟩ := Option.bind_eq_some_iff.mp hvalue
  obtain ⟨trimmed, htrimmed, hinner⟩ := Option.bind_eq_some_iff.mp hconfiguration
  obtain ⟨data, -, rfl⟩ := Option.map_eq_some_iff.mp htrimmed
  -- the configuration has been trimmed with the data, and so have its own children
  obtain ⟨child, hchild⟩ := Tree.exists_trimChild_of_field?_trim hinner
  rw [Tree.eq_trim_of_trimChild hchild] at hfield
  obtain ⟨leaf, hleaf⟩ := Tree.exists_trimChild_of_field?_trim hfield
  obtain ⟨s, hs, rfl⟩ := Option.map_eq_some_iff.mp htext
  -- only a leaf has a text, and its text is blank if and only if the leaf is
  match value, hs with
  | .scalar s, rfl =>
    have hblank : s.isBlank = false := Tree.not_isBlank_of_trimChild hleaf
    rw [Scalar.isBlank] at hblank
    rw [Scalar.toList_toText]
    exact hblank

/-- The settings of a deployment node, with the defaults for those that it does not say. -/
def CompileOptions.settings (o : CompileOptions) (n : Node) : Deployment where
  deployer := (n.setting? "deployer").getD o.defaultDeployer
  processName := (n.setting? "process_name").getD n.name
  hostId := (n.setting? "hostID").getD o.defaultHost

/-- What stands under a key of the trimmed data of a node, if there is any. -/
private theorem trimmedFields_get? (data : Option Tree) (key : String) :
    (trimmedFields data).get? key = (data.map Tree.trim).bind (·.field? key) := by
  unfold trimmedFields
  cases data with
  | none => rfl
  | some tree =>
    simp only [Option.map_some, Option.getD_some, Option.bind_some, Tree.fields, Tree.field?]
    cases tree.trim.map? <;> rfl

/-- The deployment that a deployment node starts with has its settings and no tasks. -/
theorem CompileOptions.explicitDeployment_eq (o : CompileOptions) (n : Node) :
    o.explicitDeployment n = o.settings n := by
  unfold explicitDeployment settings deploymentOverrides Node.setting?
  rw [trimmedFields_get?]
  cases (n.data.map Tree.trim).bind (·.field? "configuration") <;> rfl

/-! ## Tasks -/

/-- The tasks that name a node as their parent, in their order. -/
def Graph.children (g : Graph) (o : CompileOptions) (parent : String) : List Node :=
  g.nodes.filter fun n => o.isTask n && n.parent? == some parent

/-- The deployment of some settings and some tasks. A single task gives the process its
role, and several tasks are listed under their own names. This is the whole of what a
deployment depends on. -/
def Deployment.ofTasks (settings : Deployment) : List Node → Deployment
  | [] => settings
  | [t] => { settings with processName := t.role, taskList := ⟨[(t.name, t.role)]⟩ }
  | tasks => { settings with taskList := ⟨tasks.map fun t => (t.name, t.name)⟩ }

variable {g : Graph} {o : CompileOptions} {n : Node}

/-- The tasks that go to the deployment of a deployment node are its children: the deployment of a
task without a parent never has the name of a deployment node. -/
theorem hosted_eq_children (hvalid : g.Valid o) {name : String}
    (hdep : g.hasDeployment o name = true) : o.hosted name g.nodes = g.children o name := by
  refine List.filter_congr fun n hn => ?_
  cases ht : o.isTask n with
  | false => rfl
  | true =>
    simp only [Bool.true_and]
    cases hparent : n.parent? with
    | some parent => simp [Node.host_of_parent hparent]
    | none =>
      -- validation has kept the name of its deployment free
      have hfree := (hvalid n hn ht).own hparent
      have hne : implicitDeployment n.name ≠ name := by
        rintro rfl
        rw [hdep] at hfree
        cases hfree
      simp [Node.host_of_orphan hparent, hne]

/-! ## Placing -/

namespace Deployment

variable {settings : Deployment}

/-- One more task is added to what the others have made. -/
theorem holding_concat (settings : Deployment) (tasks : List Node) (t : Node) :
    settings.holding (tasks ++ [t]) =
      (settings.holding tasks).addTask settings.processName t.name t.role := by
  simp only [holding, List.foldl_append, List.foldl_cons, List.foldl_nil]

/-- A task with a new name is listed last, and the process takes its role
unless there are others. -/
theorem addTask_of_new {d : Deployment} {entries : List (String × String)}
    (hlist : d.taskList = ⟨entries⟩) {task : String} (hnew : task ∉ entries.map Prod.fst)
    (processName role : String) :
    d.addTask processName task role =
      { d with
        processName := if entries = [] then role else processName
        taskList := ⟨entries ++ [(task, role)]⟩ } := by
  have hkey : task ∉ d.taskList.keys := by
    rw [hlist]
    exact hnew
  have hinsert : d.taskList.insert task role = ⟨entries ++ [(task, role)]⟩ := by
    rw [OrderedMap.insert_of_new hkey, hlist]
  unfold addTask isMultiTask
  simp only [hinsert, OrderedMap.size]
  -- it holds several tasks exactly if there was one before
  cases entries with
  | nil => rfl
  | cons e rest => simp

/-- The process name of a deployment in the course of placing: the role of its only task, or else
its own. -/
def processNameOf (settings : Deployment) : List Node → String
  | [t] => t.role
  | _ => settings.processName

/-- A deployment in the course of placing lists each of its tasks under its role. -/
theorem holding_eq (hempty : settings.taskList = OrderedMap.empty) {tasks : List Node}
    (hnames : (tasks.map Node.name).Nodup) :
    settings.holding tasks =
      { settings with
        processName := settings.processNameOf tasks
        taskList := ⟨tasks.map fun t => (t.name, t.role)⟩ } := by
  -- tasks are added at the end, so the induction takes them away there
  induction tasks using List.reverseRecOn with
  | nil =>
    obtain ⟨deployer, processName, hostId, taskList⟩ := settings
    cases hempty
    rfl
  | append_singleton tasks t ih =>
    rw [List.map_append, List.nodup_append] at hnames
    obtain ⟨hnodup, -, hapart⟩ := hnames
    have hlist : (settings.holding tasks).taskList = ⟨tasks.map fun t => (t.name, t.role)⟩ := by
      rw [ih hnodup]
    have hnew : t.name ∉ (tasks.map fun t => (t.name, t.role)).map Prod.fst := by
      rw [List.map_map]
      exact fun hmem => hapart t.name hmem t.name (by simp) rfl
    rw [holding_concat, addTask_of_new hlist hnew, ih hnodup]
    -- the first task gives its role to the process, the second one takes it back
    cases tasks with
    | nil => rfl
    | cons first rest => cases rest <;> simp [processNameOf]

/-- **A deployment is settled by its tasks**: after consolidation it is that of its settings and its
tasks, however its process name and its task list have been rewritten before. -/
theorem consolidate_holding {explicit : OrderedMap Deployment} {name : String}
    (hget : explicit.get? name = some settings) (hempty : settings.taskList = OrderedMap.empty)
    {tasks : List Node} (hnames : (tasks.map Node.name).Nodup) :
    (settings.holding tasks).consolidate explicit name = settings.ofTasks tasks := by
  rw [holding_eq hempty hnames, consolidate]
  -- with none or one task there is nothing left to settle
  match tasks with
  | [] =>
    obtain ⟨deployer, processName, hostId, taskList⟩ := settings
    cases hempty
    rfl
  | [t] => rfl
  | first :: second :: rest =>
    -- the roles under which several tasks were listed give way to their names
    have hmulti : Deployment.isMultiTask
        { settings with
          processName := settings.processNameOf (first :: second :: rest)
          taskList := ⟨(first :: second :: rest).map fun t => (t.name, t.role)⟩ } = true := by
      simp [isMultiTask, OrderedMap.size]
    rw [if_pos hmulti, hget]
    simp [ofTasks, OrderedMap.mapValues]

end Deployment

/-! ## Descriptors -/

/-- The deployments of a compiled graph are determined by the settings and the tasks of each. There
is no order of the nodes in this, though the process name and the task list are rewritten with every
task that comes. -/
structure DeploymentsDetermined (g : Graph) (o : CompileOptions) (c : Compiled) : Prop where
  /-- The deployment of a deployment node is that of its settings and its children. -/
  ofNode : ∀ d ∈ g.nodes, o.isDeployment d = true →
    c.descriptor.deployments.get? d.name = some ((o.settings d).ofTasks (g.children o d.name))
  /-- A task without a parent runs alone under its role, with the defaults. -/
  ofOrphan : ∀ t ∈ g.nodes, o.isTask t = true → t.parent? = none →
    c.descriptor.deployments.get? (implicitDeployment t.name) =
      some ⟨o.defaultDeployer, t.role, o.defaultHost, ⟨[(t.name, t.role)]⟩⟩
  /-- There are no other deployments. -/
  noOthers : ∀ name ∈ c.descriptor.deployments.keys,
    (∃ d ∈ g.nodes, o.isDeployment d = true ∧ d.name = name) ∨
      ∃ t ∈ g.nodes, o.isTask t = true ∧ t.parent? = none ∧ implicitDeployment t.name = name
  /-- The role of a task is the one that its type name gives. -/
  roles : ∀ t ∈ g.nodes, o.isTask t = true → processRole t.name t.typeName = .ok t.role
  /-- What a deployment node says is not blank. -/
  notBlank : ∀ d ∈ g.nodes, ∀ key text, d.setting? key = some text →
    Text.isBlank text.toList = false

section Finish

variable {placed : Descriptor}

/-- The deployment of a deployment node, which may stand before, between or after its tasks.
Whichever of them comes first makes the deployment, and with the settings of the node in each case.
-/
theorem finish_ofNode (hwf : g.WellFormed) (hvalid : g.Valid o)
    (hplaced : Placed g o g.nodes placed)
    (hn : n ∈ g.nodes) (hdep : o.isDeployment n = true) :
    (g.finish o (g.explicitDeployments o) placed).descriptor.deployments.get? n.name =
      some ((o.settings n).ofTasks (g.children o n.name)) := by
  -- its deployment is there from the first, so it does not matter when the node comes
  have hget : (g.explicitDeployments o).get? n.name = some (o.explicitDeployment n) :=
    hwf.explicitDeployments_get?_eq_some_iff.mpr ⟨n, hn, hdep, rfl, rfl⟩
  have hthere : n.name ∈ g.nodes.map Node.name := List.mem_map_of_mem hn
  have hhas : g.hasDeployment o n.name = true := (hwf.hasDeployment_iff _).mpr ⟨n, hn, hdep, rfl⟩
  have hat : g.deploymentAt o g.nodes n.name =
      some ((o.explicitDeployment n).holding (o.hosted n.name g.nodes)) := by
    simp [deploymentAt, hget, hthere]
  rw [finish_deployments_get? hplaced, hat, Option.map_some,
    Deployment.consolidate_holding hget rfl (hosted_names_nodup hwf _),
    hosted_eq_children hvalid hhas, o.explicitDeployment_eq]

/-- The deployment of a task without a parent has this task alone, under its role and with the
defaults. -/
theorem finish_ofOrphan (hwf : g.WellFormed) (hvalid : g.Valid o)
    (hplaced : Placed g o g.nodes placed) (horphan : n ∈ g.orphans o) :
    (g.finish o (g.explicitDeployments o) placed).descriptor.deployments.get?
        (implicitDeployment n.name) =
      some ⟨o.defaultDeployer, n.role, o.defaultHost, ⟨[(n.name, n.role)]⟩⟩ := by
  have hhost : n.host = implicitDeployment n.name :=
    Node.host_of_orphan (mem_orphans.mp horphan).2.2
  have hfree : (g.explicitDeployments o).get? n.host = none :=
    hwf.explicitDeployments_get?_eq_none_iff.mpr (hasDeployment_of_orphan hvalid horphan)
  have hat : g.deploymentAt o g.nodes n.host = some (o.ownDeployment n.name n.role) := by
    simp only [deploymentAt, hfree, hosted_of_orphan hwf hvalid horphan]
    rfl
  rw [← hhost, finish_deployments_get? hplaced, hat]
  -- a deployment with a single task is left as it is
  rfl

end Finish

/-- **The deployments of a descriptor are determined by the settings and the tasks of each.** The
order of the nodes matters only for the order of the tasks that a deployment lists. -/
theorem compile_deployments_determined (hwf : g.WellFormed) (c : Compiled)
    (h : g.compile o = .ok c) : DeploymentsDetermined g o c := by
  have hvalid := valid_of_compile h
  obtain ⟨placed, hplaced, rfl⟩ := compile_placed hwf h
  exact {
    ofNode := fun d hd hdep => finish_ofNode hwf hvalid hplaced hd hdep
    ofOrphan := fun t ht htask hparent =>
      finish_ofOrphan hwf hvalid hplaced (mem_orphans.mpr ⟨ht, htask, hparent⟩)
    noOthers := by
      intro name hname
      rw [mem_finish_deployments hwf hvalid hplaced, mem_deploymentNames_iff hwf] at hname
      -- a deployment comes from a node, or it belongs to a task without a parent
      rcases hname with hdep | ⟨t, ht, rfl⟩
      · exact .inl ((hwf.hasDeployment_iff name).mp hdep)
      · obtain ⟨hmem, htask, hparent⟩ := mem_orphans.mp ht
        exact .inr ⟨t, hmem, htask, hparent, (Node.host_of_orphan hparent).symm⟩
    roles := fun t ht htask => processRole_of_segments (hvalid t ht htask).segments
    notBlank := fun d _ key text hset => Node.setting?_not_isBlank hset }

/-- A rig with a deployment between its two tasks, whose process name is blank, and a deployment
behind its only task. -/
def rigGraph : Graph where
  nodes := [
    { name := "camera", domain := "software", typeName := "camera::Task",
      parentName := some "main" },
    { name := "main", typeName := "software::Deployment",
      data := some (.ofEntries [("configuration", .ofEntries [("deployer", .text "rock"),
        ("process_name", .text " "), ("hostID", .scalar (.int 7))])]) },
    { name := "imu", domain := "software", typeName := "imu::Task", parentName := some "main" },
    { name := "arm", domain := "software", typeName := "arm::Task", parentName := some "side" },
    { name := "side", typeName := "software::Deployment",
      data := some (.ofEntries [("configuration", .ofEntries [("process_name", .text "sided")])]) }]
  edges := []
  types := OrderedMap.empty

set_option maxRecDepth 10000 in
/-- The first deployment of the rig keeps its name as process name, and the second one runs under
the role of its task. -/
theorem rigGraph_deployments :
    rigGraph.WellFormed ∧ ∃ c, rigGraph.compile {} = .ok c ∧
      c.descriptor.deployments.get? "main" =
        some ⟨"rock", "main", "7", ⟨[("camera", "camera"), ("imu", "imu")]⟩⟩ ∧
      c.descriptor.deployments.get? "side" =
        some ⟨"orogen", "orogen_default_arm__Task", "local",
          ⟨[("arm", "orogen_default_arm__Task")]⟩⟩ := by
  have hwf : rigGraph.WellFormed := ⟨by decide, by decide⟩
  have hsome : (rigGraph.compile {}).toOption.isSome = true := by decide +kernel
  cases h : rigGraph.compile {} with
  | error e =>
    rw [h] at hsome
    cases hsome
  | ok c =>
    have hdetermined := compile_deployments_determined hwf c h
    have hmain := hdetermined.ofNode (rigGraph.nodes[1]) (by decide) (by decide)
    have hside := hdetermined.ofNode (rigGraph.nodes[4]) (by decide) (by decide)
    exact ⟨hwf, c, rfl, hmain.trans (by decide +kernel), hside.trans (by decide +kernel)⟩

end ModelGraph
