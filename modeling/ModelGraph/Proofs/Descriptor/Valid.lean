import ModelGraph.Descriptor.Compile
import ModelGraph.Proofs.Except
import ModelGraph.Proofs.Graph.Changes

/-!
# Valid software graphs

What the validation of a software graph checks, said of the graph itself, and what it answers: the
role of every task.

- `ValidTask`, `Valid`: what has to hold of a task, and of all tasks.
- `roles_eq_ok_iff`: validation succeeds exactly for valid graphs, with the roles of their tasks.
-/

namespace ModelGraph

/-! ## Tasks -/

/-- The deployment that a task goes to: that of its parent, or one of its own. -/
def Node.host (n : Node) : String := n.parent?.getD (implicitDeployment n.name)

/-- The role of a task, as far as its type name gives one. For the tasks of a valid graph it always
does. -/
def Node.role (n : Node) : String := (processRole n.name n.typeName).toOption.getD ""

/-- Tasks with different names get different deployments of their own. -/
theorem implicitDeployment_injective {task task' : String}
    (h : implicitDeployment task = implicitDeployment task') : task = task' :=
  (String.append_left_inj _).mp h

/-- A task with a parent goes to the deployment of its parent. -/
theorem Node.host_of_parent {n : Node} {parent : String} (h : n.parent? = some parent) :
    n.host = parent := by rw [host, h, Option.getD_some]

/-- A task without a parent goes to a deployment of its own. -/
theorem Node.host_of_orphan {n : Node} (h : n.parent? = none) :
    n.host = implicitDeployment n.name := by rw [host, h, Option.getD_none]

/-- No node is both a task and a deployment. -/
theorem CompileOptions.isDeployment_of_isTask {o : CompileOptions} {n : Node}
    (h : o.isTask n = true) : o.isDeployment n = false := by
  simp only [isTask, Bool.and_eq_true, Bool.not_eq_true'] at h
  exact h.1

/-- A type name gives a role exactly if it has three segments or more. -/
theorem processRole_of_segments {n : Node} (h : 3 ≤ (typeSegments n.typeName).length) :
    processRole n.name n.typeName = .ok n.role := by
  unfold Node.role processRole
  match hseg : typeSegments n.typeName with
  | first :: _ :: third :: _ => rfl
  | [] | [_] | [_, _] =>
    rw [hseg] at h
    simp at h

/-- Where there are fewer segments the type name is refused, and the error names the task and its
type. -/
theorem processRole_of_few_segments {n : Node} (h : ¬ 3 ≤ (typeSegments n.typeName).length) :
    processRole n.name n.typeName = .error (.invalidTypeNamespace n.name n.typeName) := by
  unfold processRole
  split
  · rename_i hseg
    rw [hseg] at h
    simp at h
  · rfl

namespace Graph

/-- What is checked of a task: its parent is a deployment node, or the deployment of its own does
not have the name of a deployment node; and its type name has three segments. Nothing is asked of
the order of the nodes. -/
structure ValidTask (g : Graph) (o : CompileOptions) (n : Node) : Prop where
  parent : ∀ p, n.parent? = some p → g.hasDeployment o p = true
  own : n.parent? = none → g.hasDeployment o (implicitDeployment n.name) = false
  segments : 3 ≤ (typeSegments n.typeName).length

/-- All tasks of the graph are valid. -/
def Valid (g : Graph) (o : CompileOptions) : Prop :=
  ∀ n ∈ g.nodes, o.isTask n = true → g.ValidTask o n

variable {g : Graph} {o : CompileOptions} {n : Node}

/-- Where names are unique, a name is that of a deployment if some deployment node has it. -/
theorem WellFormed.hasDeployment_iff (h : g.WellFormed) (name : String) :
    g.hasDeployment o name = true ↔ ∃ n ∈ g.nodes, o.isDeployment n = true ∧ n.name = name := by
  simp only [hasDeployment, Option.any_eq_true, h.node?_eq_some_iff]
  constructor
  · rintro ⟨n, ⟨hmem, hname⟩, hdep⟩
    exact ⟨n, hmem, hdep, hname⟩
  · rintro ⟨n, hmem, hdep, hname⟩
    exact ⟨n, ⟨hmem, hname⟩, hdep⟩

/-! ## Validation -/

/-- The check of the place succeeds exactly if one of the two conditions on it holds, whichever
applies. -/
theorem checkPlace_eq_ok_iff :
    g.checkPlace o n = .ok () ↔ (∀ p, n.parent? = some p → g.hasDeployment o p = true) ∧
      (n.parent? = none → g.hasDeployment o (implicitDeployment n.name) = false) := by
  unfold checkPlace
  -- only one of the two conditions says something, as there is a parent or there is none
  cases hparent : n.parent? with
  | none => cases g.hasDeployment o (implicitDeployment n.name) <;> simp
  | some parent => cases g.hasDeployment o parent <;> simp

/-- A task is taken in exactly if it is valid, and its role is noted. Together with
`addRole_eq_error_iff` this says all about one task. -/
theorem addRole_eq_ok_iff {roles roles' : OrderedMap String} :
    g.addRole o roles n = .ok roles' ↔ g.ValidTask o n ∧ roles' = roles.insert n.name n.role := by
  unfold addRole
  constructor
  · intro h
    -- the place is checked before the type name
    obtain ⟨_, hplace, h⟩ := bind_eq_ok.mp h
    obtain ⟨role, hrole, h⟩ := bind_eq_ok.mp h
    cases h
    obtain ⟨hparent, hown⟩ := checkPlace_eq_ok_iff.mp hplace
    by_cases hseg : 3 ≤ (typeSegments n.typeName).length
    · rw [processRole_of_segments hseg] at hrole
      cases hrole
      exact ⟨⟨hparent, hown, hseg⟩, rfl⟩
    · rw [processRole_of_few_segments hseg] at hrole
      cases hrole
  · rintro ⟨hvalid, rfl⟩
    have hplace := checkPlace_eq_ok_iff.mpr ⟨hvalid.parent, hvalid.own⟩
    simp only [hplace, processRole_of_segments hvalid.segments, bind, Except.bind]

/-- All of some tasks are taken in exactly if all of them are valid, and their roles are noted in
order. -/
theorem foldlM_addRole_eq_ok_iff (tasks : List Node) :
    ∀ roles roles' : OrderedMap String, tasks.foldlM (g.addRole o) roles = .ok roles' ↔
      (∀ n ∈ tasks, g.ValidTask o n) ∧
        roles' =
          (tasks.map fun n => (n.name, n.role)).foldl (fun m (k, v) => m.insert k v) roles := by
  induction tasks with
  | nil =>
    intro roles roles'
    simp [pure, Except.pure, eq_comm]
  | cons n rest ih =>
    intro roles roles'
    rw [foldlM_cons_eq_ok, List.map_cons, List.foldl_cons, List.forall_mem_cons]
    -- the first task is valid and noted, and the others go on from there
    constructor
    · rintro ⟨noted, hadd, h⟩
      obtain ⟨hvalid, rfl⟩ := addRole_eq_ok_iff.mp hadd
      obtain ⟨hrest, hroles⟩ := (ih _ _).mp h
      exact ⟨⟨hvalid, hrest⟩, hroles⟩
    · rintro ⟨⟨hvalid, hrest⟩, hroles⟩
      exact ⟨_, addRole_eq_ok_iff.mpr ⟨hvalid, rfl⟩, (ih _ _).mpr ⟨hrest, hroles⟩⟩

/-- **Validation succeeds exactly for valid graphs**, and answers the roles of their tasks. Every
later stage relies on this and on nothing else of the validation. -/
theorem roles_eq_ok_iff {roles : OrderedMap String} :
    g.roles o = .ok roles ↔ g.Valid o ∧
      roles = .ofList ((g.nodes.filter o.isTask).map fun n => (n.name, n.role)) := by
  rw [Graph.roles, foldlM_addRole_eq_ok_iff]
  refine and_congr_left fun _ => ?_
  simp only [List.mem_filter, and_imp]
  exact Iff.rfl

/-- The role of each task is noted under its name. -/
theorem WellFormed.roles_get? (h : g.WellFormed) (hn : n ∈ g.nodes) (ht : o.isTask n = true)
    {roles : OrderedMap String} (hroles : g.roles o = .ok roles) :
    roles.get? n.name = some n.role := by
  have hkeys := h.filter_entries_nodup o.isTask Node.role
  rw [(roles_eq_ok_iff.mp hroles).2, OrderedMap.ofList_eq_of_nodup hkeys]
  exact (OrderedMap.lookup_eq_some_iff_mem hkeys _ _).mpr
    (List.mem_map_of_mem (List.mem_filter.mpr ⟨hn, ht⟩))

end Graph
end ModelGraph
