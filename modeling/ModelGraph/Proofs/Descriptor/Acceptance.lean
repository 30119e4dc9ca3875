import ModelGraph.Proofs.Descriptor.Partition

/-!
# Acceptance of graphs

A graph is compiled if and only if it is valid. Otherwise the error is that of the first task that
is not, and of the faults of this task the one of its place comes before the one of its type name.
Whatever passes validation passes all later stages.

- `TaskFault`: what can be wrong with a task, with the error that tells it.
- `roles_eq_error_iff`: validation fails with the fault of the first task that has one.
- `compile_accepts_exactly_valid`: the same for compilation.
-/

namespace ModelGraph

open ModelGraph.Graph

variable {g : Graph} {o : CompileOptions} {n : Node}

/-! ## Faults of a task -/

/-- A fault of a task and the error that tells it. The place of a task is looked at first, so its
type name is told of only where its place is right. -/
inductive Graph.TaskFault (g : Graph) (o : CompileOptions) (n : Node) : CompileError → Prop where
  /-- The parent is no deployment node. -/
  | parent {p : String} (hparent : n.parent? = some p) (hnone : g.hasDeployment o p = false) :
      TaskFault g o n (.danglingParent n.name p)
  /-- There is no parent, and a deployment node has the name of the deployment that the task would
  get. -/
  | own (hparent : n.parent? = none)
      (htaken : g.hasDeployment o (implicitDeployment n.name) = true) :
      TaskFault g o n (.deploymentNameCollision n.name (implicitDeployment n.name))
  /-- The place is right, and the type name has fewer than three segments. -/
  | segments (hparent : ∀ p, n.parent? = some p → g.hasDeployment o p = true)
      (hown : n.parent? = none → g.hasDeployment o (implicitDeployment n.name) = false)
      (hfew : (typeSegments n.typeName).length < 3) :
      TaskFault g o n (.invalidTypeNamespace n.name n.typeName)

/-- A place is refused for the first two kinds of faults. -/
theorem Graph.checkPlace_eq_error {e : CompileError} (h : g.checkPlace o n = .error e) :
    g.TaskFault o n e := by
  unfold checkPlace at h
  -- with a parent only the parent is looked at, and without one only the name of its own deployment
  cases hparent : n.parent? with
  | some p =>
    cases hdep : g.hasDeployment o p with
    | true => simp [hparent, hdep] at h
    | false =>
      simp only [hparent, hdep, Bool.false_eq_true, if_false] at h
      cases h
      exact .parent hparent hdep
  | none =>
    cases hdep : g.hasDeployment o (implicitDeployment n.name) with
    | false => simp [hparent, hdep] at h
    | true =>
      simp only [hparent, hdep, if_true] at h
      cases h
      exact .own hparent hdep

/-- A task is refused exactly for its fault, whatever has been noted before. The roles of the tasks
in front of it play no part in that. -/
theorem Graph.addRole_eq_error_iff {roles : OrderedMap String} {e : CompileError} :
    g.addRole o roles n = .error e ↔ g.TaskFault o n e := by
  unfold addRole
  constructor
  · intro h
    cases hplace : g.checkPlace o n with
    | error e' =>
      simp only [hplace, bind, Except.bind] at h
      cases h
      exact checkPlace_eq_error hplace
    | ok u =>
      -- the place is right, so only the type name can be wrong
      obtain ⟨hparent, hown⟩ := checkPlace_eq_ok_iff.mp hplace
      by_cases hseg : 3 ≤ (typeSegments n.typeName).length
      · simp [hplace, processRole_of_segments hseg, bind, Except.bind] at h
      · simp only [hplace, processRole_of_few_segments hseg, bind, Except.bind] at h
        cases h
        exact .segments hparent hown (Nat.lt_of_not_le hseg)
  · intro h
    cases h with
    | parent hparent hnone => simp [checkPlace, hparent, hnone, bind, Except.bind]
    | own hparent htaken => simp [checkPlace, hparent, htaken, bind, Except.bind]
    | segments hparent hown hfew =>
      have hplace := checkPlace_eq_ok_iff.mpr ⟨hparent, hown⟩
      have hrole := processRole_of_few_segments (n := n) (Nat.not_le_of_lt hfew)
      simp only [hplace, hrole, bind, Except.bind]

/-! ## Validation -/

/-- Some tasks are refused exactly for the fault of the first of them that has one. -/
private theorem foldlM_addRole_eq_error_iff {e : CompileError} (tasks : List Node)
    (roles : OrderedMap String) : tasks.foldlM (g.addRole o) roles = .error e ↔
      ∃ before n after, tasks = before ++ n :: after ∧ (∀ m ∈ before, g.ValidTask o m) ∧
        g.TaskFault o n e := by
  rw [foldlM_eq_error]
  constructor
  · rintro ⟨before, n, after, noted, htasks, hbefore, hn⟩
    have hvalid := ((foldlM_addRole_eq_ok_iff before roles noted).mp hbefore).1
    exact ⟨before, n, after, htasks, hvalid, addRole_eq_error_iff.mp hn⟩
  · rintro ⟨before, n, after, htasks, hvalid, hn⟩
    have hbefore := (foldlM_addRole_eq_ok_iff before roles _).mpr ⟨hvalid, rfl⟩
    -- a task that is refused is refused for the same reason whatever roles have been noted
    exact ⟨before, n, after, _, htasks, hbefore, addRole_eq_error_iff.mpr hn⟩

/-- A task of the graph has a fault, and all tasks before it are valid. So the error of a graph with
several faults is determined. -/
def Graph.FirstFault (g : Graph) (o : CompileOptions) (e : CompileError) : Prop :=
  ∃ before n after, g.nodes = before ++ n :: after ∧
    (∀ m ∈ before, o.isTask m = true → g.ValidTask o m) ∧ o.isTask n = true ∧ g.TaskFault o n e

/-- **Validation fails with the fault of the first task that has one.** All tasks in front of it are
valid, so they have been taken in. -/
theorem roles_eq_error_iff {e : CompileError} : g.roles o = .error e ↔ g.FirstFault o e := by
  rw [Graph.roles, foldlM_addRole_eq_error_iff]
  constructor
  · rintro ⟨before, n, after, htasks, hbefore, hn⟩
    -- the tasks before `n` are those of the nodes before it
    obtain ⟨nodes, rest, hnodes, rfl, hrest⟩ := List.filter_eq_append_iff.mp htasks
    obtain ⟨others, after', rfl, hothers, ht, -⟩ := List.filter_eq_cons_iff.mp hrest
    refine ⟨nodes ++ others, n, after', by rw [hnodes, List.append_assoc], fun m hm hmt => ?_,
      ht, hn⟩
    rcases List.mem_append.mp hm with hm | hm
    · exact hbefore m (List.mem_filter.mpr ⟨hm, hmt⟩)
    · exact absurd hmt (hothers m hm)
  · rintro ⟨before, n, after, hnodes, hbefore, ht, hn⟩
    refine ⟨before.filter o.isTask, n, after.filter o.isTask, ?_, fun m hm => ?_, hn⟩
    · rw [hnodes, List.filter_append, List.filter_cons_of_pos ht]
    · obtain ⟨hmem, hmt⟩ := List.mem_filter.mp hm
      exact hbefore m hmem hmt

/-! ## Compilation -/

/-- Compilation fails exactly if validation does, and with the same error. -/
theorem compile_eq_error_iff (hwf : g.WellFormed) {e : CompileError} :
    g.compile o = .error e ↔ g.roles o = .error e := by
  -- what passes validation compiles, so no error can come from later on
  cases hroles : g.roles o with
  | error e' => simp [compile, hroles, bind, Except.bind]
  | ok roles =>
    obtain ⟨d, -, hcompile⟩ := compile_of_valid hwf (roles_eq_ok_iff.mp hroles).1
    rw [hcompile]
    simp

/-- **Exactly the valid graphs are compiled**, an invalid one is refused for the first fault of its
tasks, and nothing that passes validation fails later: every task has a role, the deployment of
every parent is found, and all nodes are placed. -/
theorem compile_accepts_exactly_valid (hwf : g.WellFormed) :
    ((∃ c, g.compile o = .ok c) ↔ g.Valid o) ∧
      (∀ e, g.compile o = .error e ↔ g.FirstFault o e) ∧
      ∀ roles, g.roles o = .ok roles →
        (∀ n ∈ g.nodes, o.isTask n = true → roles.get? n.name = some n.role ∧
          ∀ p, n.parent? = some p → ∃ d, (g.explicitDeployments o).get? p = some d) ∧
        ∃ d, g.placeNodes o (g.explicitDeployments o) roles = .ok d ∧
          g.compile o = .ok (g.finish o (g.explicitDeployments o) d) := by
  refine ⟨⟨fun ⟨c, hc⟩ => valid_of_compile hc, fun hvalid => ?_⟩, fun e => ?_,
    fun roles hroles => ?_⟩
  · obtain ⟨d, -, hcompile⟩ := compile_of_valid hwf hvalid
    exact ⟨_, hcompile⟩
  · rw [compile_eq_error_iff hwf, roles_eq_error_iff]
  · have hvalid : g.Valid o := (roles_eq_ok_iff.mp hroles).1
    obtain ⟨d, hplace, -⟩ := placeNodes_placed hwf hvalid hroles
    refine ⟨fun n hn ht => ⟨hwf.roles_get? hn ht hroles, fun p hparent => ?_⟩, d, hplace, ?_⟩
    · -- validation looks for a node, and placing for its settings
      obtain ⟨m, hm, hdep, hname⟩ :=
        (hwf.hasDeployment_iff p).mp ((hvalid n hn ht).parent p hparent)
      exact ⟨_, hwf.explicitDeployments_get?_eq_some_iff.mpr ⟨m, hm, hdep, hname, rfl⟩⟩
    · simp only [compile, hroles, hplace, bind, Except.bind]

/-- A graph whose second task has a parent that is no deployment node, and a type name that is too
short. The deployment node after it has the name that the last task needs. -/
def strayGraph : Graph where
  nodes := [
    { name := "camera", domain := "software", typeName := "camera::Task" },
    { name := "imu", domain := "software", typeName := "Task", parentName := some "camera" },
    { name := "arm_deployment", typeName := "software::Deployment" },
    { name := "arm", domain := "software", typeName := "arm::Task" }]
  edges := []
  types := OrderedMap.empty

set_option maxRecDepth 10000 in
/-- The stray graph is refused for the parent of its second task. -/
theorem strayGraph_refused : strayGraph.WellFormed ∧ ¬ strayGraph.Valid {} ∧
    strayGraph.compile {} = .error (.danglingParent "imu" "camera") := by
  have hwf : strayGraph.WellFormed := ⟨by decide, by decide⟩
  obtain ⟨haccepts, hrefuses, -⟩ := compile_accepts_exactly_valid (o := {}) hwf
  have hcamera : strayGraph.ValidTask {} (strayGraph.nodes[0]) :=
    ⟨by decide +kernel, by decide +kernel, by decide +kernel⟩
  have herror : strayGraph.compile {} = .error (.danglingParent "imu" "camera") := by
    -- the task in front has no fault, and the next one names a parent that is missing
    refine (hrefuses _).mpr ⟨[strayGraph.nodes[0]], strayGraph.nodes[1], strayGraph.nodes.drop 2,
      rfl, fun m hm _ => ?_, by decide +kernel, .parent rfl (by decide +kernel)⟩
    rw [List.mem_singleton.mp hm]
    exact hcamera
  refine ⟨hwf, fun hvalid => ?_, herror⟩
  obtain ⟨c, hc⟩ := haccepts.mpr hvalid
  rw [herror] at hc
  cases hc

end ModelGraph
