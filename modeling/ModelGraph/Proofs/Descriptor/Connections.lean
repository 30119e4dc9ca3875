import Mathlib.Data.List.Nodup
import ModelGraph.Proofs.Descriptor.Placement
import ModelGraph.Proofs.Text.Digits

/-!
# Connections of tasks

The connections of a descriptor are the edges between its tasks, in their order. Deployments, nodes
of other domains and nodes that do not exist are no tasks, so the edges at them are left out.

- `Graph.joinsTasks`: an edge between tasks, told from the graph alone.
- `ofList_numbered`: documents under their ordinal numbers never share a key.
- `compile_connects_tasks`: the connections, how they are counted and how they are documented.
-/

namespace ModelGraph

open ModelGraph.Graph

/-! ## Ordinal numbers -/

/-- Ordinal numbers are written as natural numbers are. -/
private theorem ofList_decimal (n : Nat) : String.ofList (Text.decimal n) = toString n :=
  Nat.toString_eq_ofList_toDigits.symm

/-- No two of them have the same text. -/
private theorem ordinal_injective : Function.Injective fun n : Nat => toString n := by
  intro m n h
  simp only [← ofList_decimal] at h
  exact Text.decimal_injective (String.ofList_injective h)

/-- Numbering pairs each element with its place. -/
theorem numbered_eq (l : List Tree) :
    ∀ first, numbered first l = (l.zipIdx first).map fun (t, i) => (toString i, t) := by
  induction l with
  | nil => intro first; rfl
  | cons t rest ih =>
    intro first
    -- the first element has the number that is given, and the others go on from the next
    rw [numbered, ih, ofList_decimal]
    rfl

/-- The keys are the ordinal numbers in their order. -/
theorem keys_numbered (l : List Tree) (first : Nat) :
    (numbered first l).map Prod.fst = (List.range' first l.length).map toString := by
  rw [numbered_eq, List.map_map, ← List.zipIdx_map_snd first l, List.map_map]
  rfl

/-- No ordinal number comes twice. -/
theorem keys_numbered_nodup (l : List Tree) (first : Nat) :
    ((numbered first l).map Prod.fst).Nodup := by
  rw [keys_numbered]
  exact (List.nodup_range').map ordinal_injective

/-- No two ordinal numbers have the same text, so nothing is merged when the documents are collected
into a map. -/
theorem ofList_numbered (l : List Tree) (first : Nat) :
    OrderedMap.ofList (numbered first l) = ⟨numbered first l⟩ :=
  OrderedMap.ofList_eq_of_nodup (keys_numbered_nodup l first)

/-- Under the ordinal number of an element stands its document. -/
theorem lookup_numbered (l : List Tree) {i : Nat} (h : i < l.length) :
    (numbered 0 l).lookup (toString i) = some l[i] := by
  refine (OrderedMap.lookup_eq_some_iff_mem (keys_numbered_nodup l 0) _ _).mpr ?_
  rw [numbered_eq, List.mem_map]
  exact ⟨(l[i], i), List.mk_mem_zipIdx_iff_getElem?.mpr (List.getElem?_eq_getElem h), rfl⟩

/-! ## Edges between tasks -/

/-- There is a task with the name. -/
def Graph.hasTask (g : Graph) (o : CompileOptions) (name : String) : Bool :=
  (g.node? name).any o.isTask

/-- The edge leads from a task to a task. Whether it does is told from the graph alone, whereas
compilation asks the tasks that have been placed. -/
def Graph.joinsTasks (g : Graph) (o : CompileOptions) (e : Edge) : Bool :=
  g.hasTask o e.ends.fromNode && g.hasTask o e.ends.toNode

variable {g : Graph} {o : CompileOptions} {d : Descriptor}

/-- A name is that of a task if some task node has it. -/
theorem Graph.WellFormed.hasTask_iff (h : g.WellFormed) (name : String) :
    g.hasTask o name = true ↔ ∃ n ∈ g.nodes, o.isTask n = true ∧ n.name = name := by
  -- the search finds every node with the name, since no two have it
  simp only [hasTask, Option.any_eq_true, h.node?_eq_some_iff]
  constructor
  · rintro ⟨n, ⟨hmem, hname⟩, ht⟩
    exact ⟨n, hmem, ht, hname⟩
  · rintro ⟨n, hmem, ht, hname⟩
    exact ⟨n, ⟨hmem, hname⟩, ht⟩

namespace Placed

/-- The tasks that have been placed are those of the graph. -/
theorem mem_tasks_iff (h : Placed g o g.nodes d) (hwf : g.WellFormed) (name : String) :
    name ∈ d.tasks.keys ↔ g.hasTask o name = true := by
  rw [hwf.hasTask_iff, h.tasks]
  simp only [OrderedMap.keys, List.map_map, List.mem_map, List.mem_filter, Function.comp_apply,
    and_assoc]

/-- Both ways to ask agree once all nodes have been placed. -/
theorem joinsTasks_eq (h : Placed g o g.nodes d) (hwf : g.WellFormed) :
    d.joinsTasks = g.joinsTasks o := by
  have hcontains : ∀ name, d.tasks.contains name = g.hasTask o name := fun name =>
    Bool.eq_iff_iff.mpr ((OrderedMap.contains_iff _ _).trans (h.mem_tasks_iff hwf name))
  funext e
  rw [Descriptor.joinsTasks, Graph.joinsTasks, hcontains, hcontains]

end Placed

/-! ## Documents -/

/-- A document tells of a list of connections: it has no section for an empty list, and otherwise
one that maps the ordinal numbers, in their order, to the connections. -/
structure DocumentsConnections (document : Tree) (l : List Connection) : Prop where
  absent : l = [] → document.field? "connections" = none
  present : l ≠ [] → ∃ fields : OrderedMap Tree,
    document.field? "connections" = some (.map fields) ∧
      fields = .ofList (l.zipIdx.map fun (connection, i) => (toString i, connection.toTree)) ∧
      fields.keys = (List.range l.length).map toString ∧ fields.Distinct ∧
      ∀ i (h : i < l.length), fields.get? (toString i) = some l[i].toTree

/-- The section of connections holds them under their ordinal numbers. -/
theorem Descriptor.toTree_connections (d : Descriptor) :
    d.toTree.field? "connections" =
      d.connections.map fun l => .map ⟨numbered 0 (l.map Connection.toTree)⟩ := by
  rw [Descriptor.toTree]
  cases d.connections <;> rfl

/-- The document of a descriptor tells of its connections: there is no section if there are none,
and otherwise they are listed under their numbers. -/
theorem Descriptor.documents_connections (d : Descriptor) (h : d.connections ≠ some []) :
    DocumentsConnections d.toTree (d.connections.getD []) := by
  have hfield := d.toTree_connections
  cases hd : d.connections with
  | none =>
    rw [hd] at hfield
    exact ⟨fun _ => hfield, fun hne => absurd rfl hne⟩
  | some l =>
    rw [hd] at hfield h
    rw [Option.getD_some]
    -- a section is never written for an empty list
    refine ⟨fun hnil => absurd (congrArg some hnil) h,
      fun _ => ⟨_, hfield, ?_, ?_, keys_numbered_nodup _ _, fun i hi => ?_⟩⟩
    · rw [← ofList_numbered, numbered_eq, List.zipIdx_map, List.map_map]
      rfl
    · rw [OrderedMap.keys, keys_numbered, List.length_map, List.range_eq_range']
    · rw [OrderedMap.get?, lookup_numbered _ (by simpa using hi), List.getElem_map]

/-! ## Descriptors -/

/-- The connections of a compiled graph are its edges between tasks. Edges that are left out are
counted. -/
structure TasksConnected (g : Graph) (o : CompileOptions) (c : Compiled) : Prop where
  /-- The tasks of the graph are those that have been compiled. -/
  tasks : ∀ name, name ∈ c.descriptor.tasks.keys ↔ g.hasTask o name = true
  /-- There is one connection for each edge between tasks, in the order of the edges, with the names
  and the optional values of the edge. -/
  connections : c.descriptor.connections.getD [] =
    (g.edges.filter (g.joinsTasks o)).map fun e =>
      { ends := e.ends, transport := e.transport, dataType := e.dataType, size := e.size }
  /-- Every edge is counted once, as a connection or as one that has been left out. -/
  connectionCount : c.stats.connections = (c.descriptor.connections.getD []).length
  edgeCount : c.stats.inputEdges = g.edges.length
  counts : c.stats.connections + c.stats.droppedEdges = c.stats.inputEdges
  document : DocumentsConnections c.descriptor.toTree (c.descriptor.connections.getD [])

/-- There is a list of connections exactly if an edge joins two tasks. -/
theorem finish_connections (hwf : g.WellFormed) (hplaced : Placed g o g.nodes d)
    (explicit : OrderedMap Deployment) :
    (g.finish o explicit d).descriptor.connections =
      if (g.edges.filter (g.joinsTasks o)).isEmpty then none
      else some ((g.edges.filter (g.joinsTasks o)).map Edge.connection) := by
  simp only [finish, hplaced.joinsTasks_eq hwf, List.isEmpty_map]

/-- The connections are the edges between tasks, in their order. -/
theorem finish_connections_getD (hwf : g.WellFormed) (hplaced : Placed g o g.nodes d)
    (explicit : OrderedMap Deployment) :
    (g.finish o explicit d).descriptor.connections.getD [] =
      (g.edges.filter (g.joinsTasks o)).map Edge.connection := by
  rw [finish_connections hwf hplaced]
  split
  · rename_i hempty
    rw [List.isEmpty_iff.mp hempty, List.map_nil, Option.getD_none]
  · rw [Option.getD_some]

/-- **The connections of a compiled graph are its edges between tasks**, in the order of the edges
and with all that these say about the transport. -/
theorem compile_connects_tasks (hwf : g.WellFormed) (c : Compiled) (h : g.compile o = .ok c) :
    TasksConnected g o c := by
  obtain ⟨d, hplaced, rfl⟩ := compile_placed hwf h
  have hoption := finish_connections hwf hplaced (g.explicitDeployments o)
  have hlist := finish_connections_getD hwf hplaced (g.explicitDeployments o)
  have hcount : (g.finish o (g.explicitDeployments o) d).stats.connections =
      (g.edges.filter (g.joinsTasks o)).length := by
    simp only [finish, hplaced.joinsTasks_eq hwf, List.length_map]
  exact {
    tasks := hplaced.mem_tasks_iff hwf
    connections := hlist
    connectionCount := by rw [hlist, List.length_map, hcount]
    edgeCount := rfl
    counts := by
      rw [hcount, ← List.countP_eq_length_filter]
      simp only [finish, hplaced.joinsTasks_eq hwf]
      -- an edge joins two tasks or is dropped
      have hsplit := List.length_eq_countP_add_countP (g.joinsTasks o) (l := g.edges)
      simp only [Bool.not_eq_true, Bool.decide_eq_false] at hsplit
      exact hsplit.symm
    document := by
      -- a list of connections is kept only if it has one
      refine Descriptor.documents_connections _ fun hnil => ?_
      rw [hoption] at hnil
      split at hnil
      · cases hnil
      · rename_i hne
        rw [List.map_eq_nil_iff.mp (Option.some.inj hnil)] at hne
        exact hne rfl }

/-- A graph with edges between its tasks, one of them from a task to itself, and with edges at a
deployment, at a node of another domain and at a node that is missing. -/
def busGraph : Graph where
  nodes := [
    { name := "camera", domain := "software", typeName := "camera::core::Task" },
    { name := "host", domain := "software", typeName := "software::Deployment" },
    { name := "imu", domain := "SOFTWARE", typeName := "imu::core::Task" },
    { name := "arm", domain := "mechanics", typeName := "arm::core::Task" }]
  edges := [
    { ends := ⟨"camera", "image", "host", "in"⟩ },
    { ends := ⟨"imu", "pose", "camera", "pose"⟩, transport := some (.text "udp") },
    { ends := ⟨"camera", "image", "arm", "in"⟩ },
    { ends := ⟨"camera", "image", "camera", "last"⟩, size := some (.scalar (.int 3)) },
    { ends := ⟨"imu", "pose", "missing", "pose"⟩ }]
  types := OrderedMap.empty

set_option maxRecDepth 10000 in
/-- Two of the five edges become connections, and the document lists them under 0 and 1. -/
theorem busGraph_connections :
    busGraph.WellFormed ∧ ∃ c, busGraph.compile {} = .ok c ∧
      c.descriptor.connections.getD [] = [
        { ends := ⟨"imu", "pose", "camera", "pose"⟩, transport := some (.text "udp") },
        { ends := ⟨"camera", "image", "camera", "last"⟩, size := some (.scalar (.int 3)) }] ∧
      c.stats.droppedEdges = 3 ∧
      ∃ fields : OrderedMap Tree, c.descriptor.toTree.field? "connections" = some (.map fields) ∧
        fields.keys = ["0", "1"] := by
  have hwf : busGraph.WellFormed := ⟨by decide, by decide⟩
  have hsome : (busGraph.compile {}).toOption.isSome = true := by decide +kernel
  cases h : busGraph.compile {} with
  | error e =>
    rw [h] at hsome
    cases hsome
  | ok c =>
    -- the theorem gives the connections by the edges of the graph, which can be evaluated
    have hconnected := compile_connects_tasks hwf c h
    have hlist : c.descriptor.connections.getD [] = [
        { ends := ⟨"imu", "pose", "camera", "pose"⟩, transport := some (.text "udp") },
        { ends := ⟨"camera", "image", "camera", "last"⟩, size := some (.scalar (.int 3)) }] :=
      hconnected.connections.trans (by decide +kernel)
    have hcounts := hconnected.counts
    rw [hconnected.connectionCount, hconnected.edgeCount, hlist] at hcounts
    obtain ⟨fields, hfield, -, hkeys, -⟩ := hconnected.document.present (by rw [hlist]; simp)
    rw [hlist] at hkeys
    exact ⟨hwf, c, rfl, hlist, Nat.add_left_cancel hcounts, fields, hfield,
      hkeys.trans (by decide +kernel)⟩

end ModelGraph
