import ModelGraph.Proofs.Descriptor.Connections
import ModelGraph.Proofs.Descriptor.Partition
import ModelGraph.Proofs.Graph.RoundTrip
import ModelGraph.Proofs.Tree.Storable

/-!
# Descriptors that are kept in texts

A descriptor takes trees from the graph: the data of its tasks, and what its connections say about
the transport. Everything else in its document is text. So the document can be kept in a text if
these trees can.

- `Graph.exported`: the trees that a descriptor takes from a graph.
- `taskConfig_storable`: normalizing the data of a task.
- `compile_storable`: the whole document.
-/

namespace ModelGraph

open ModelGraph.Graph

variable {p : Scalar → Prop}

/-! ## Tasks -/

/-- The trees that the descriptor of a graph takes over: the data of tasks, and the trees of edges
between tasks. Data of other nodes does not reach the descriptor, so nothing is asked of it. -/
def Graph.exported (g : Graph) (o : CompileOptions) : List Tree :=
  ((g.nodes.filter o.isTask).flatMap fun n => n.data.toList) ++
    (g.edges.filter (g.joinsTasks o)).flatMap fun e =>
      e.transport.toList ++ e.dataType.toList ++ e.size.toList

/-- Trimming keeps data fit for a text. -/
theorem trimmedFields_storable {data : Option Tree} (h : ∀ t ∈ data, t.Storable p) :
    Tree.Storable p (.map (trimmedFields data)) := by
  cases data with
  | none => exact Tree.storable_emptyMap
  | some t => exact (h t rfl).trim.fields

/-- So does keeping the valued properties. -/
theorem keepValuedProperties_storable {m : OrderedMap Tree} (h : Tree.Storable p (.map m)) :
    Tree.Storable p (.map (keepValuedProperties m)) := by
  unfold keepValuedProperties OrderedMap.take
  cases hget : m.get? "properties" with
  | none => exact h
  | some properties =>
    have hproperties : properties.Storable p := h.get? hget
    have hitems : ∀ t ∈ properties.seq?.getD [], t.Storable p := by
      cases properties with
      | seq items => exact Tree.storable_seq.mp hproperties
      | map _ | scalar _ => exact nofun
    -- the properties that are left are some of those that were there
    cases hkept : (properties.seq?.getD []).filter (·.hasField "Value") with
    | nil => simpa only [hkept] using h.erase "properties"
    | cons first rest =>
      have hseq : Tree.Storable p (.seq (first :: rest)) :=
        Tree.storable_seq.mpr fun t ht => hitems t (List.mem_filter.mp (hkept ▸ ht)).1
      simpa only [hkept] using (h.erase "properties").insert "properties" hseq

/-- Entries that are added one by one keep the map storable. -/
theorem foldl_insertIfNew_storable (entries : List (String × Tree)) :
    ∀ {m : OrderedMap Tree}, Tree.Storable p (.map m) → (∀ e ∈ entries, e.2.Storable p) →
      Tree.Storable p
        (.map (entries.foldl (fun rest (key, value) => rest.insertIfNew key value) m)) := by
  induction entries with
  | nil => exact fun h _ => h
  | cons e rest ih =>
    intro m h hentries
    obtain ⟨hfirst, hrest⟩ := List.forall_mem_cons.mp hentries
    exact ih (h.insertIfNew e.1 hfirst) hrest

/-- So does spreading the inner configuration. -/
theorem spreadConfiguration_storable {m : OrderedMap Tree} (h : Tree.Storable p (.map m)) :
    Tree.Storable p (.map (spreadConfiguration m)) := by
  unfold spreadConfiguration OrderedMap.take
  cases hget : m.get? "configuration" with
  | none => exact h
  | some configuration =>
    have hfields := Tree.storable_entries.mp (h.get? hget).fields
    exact foldl_insertIfNew_storable _ (h.erase "configuration") hfields.2

/-- The configuration of a task can be kept in a text if the data of its node can. -/
theorem taskConfig_storable {data : Option Tree} (h : ∀ t ∈ data, t.Storable p) :
    Tree.Storable p (.map (taskConfig data)) :=
  (spreadConfiguration_storable (keepValuedProperties_storable (trimmedFields_storable h))).erase
    "description"

/-! ## Documents -/

/-- Trees under ordinal numbers repeat no key. -/
theorem numbered_storable {l : List Tree} (h : ∀ t ∈ l, t.Storable p) :
    Tree.Storable p (.map ⟨numbered 0 l⟩) := by
  refine Tree.storable_map.mpr ⟨keys_numbered_nodup l 0, fun e he => ?_⟩
  rw [numbered_eq] at he
  obtain ⟨⟨t, i⟩, hmem, rfl⟩ := List.mem_map.mp he
  exact h t (List.fst_mem_of_mem_zipIdx hmem)

section Texts

variable (htext : ∀ s, Tree.Storable p (.text s))

include htext

/-- A task adds its type and its state to its configuration, both of which are texts. -/
theorem TaskEntry.storable {t : TaskEntry} (h : Tree.Storable p (.map t.config)) :
    t.toTree.Storable p := by
  have htyped := h.insert "type" (htext t.typeName)
  unfold toTree
  cases t.state with
  | none => exact htyped
  | some state => exact htyped.insert "state" (htext state)

/-- A deployment is made of texts, so only its list of tasks might repeat a key. -/
theorem Deployment.storable {d : Deployment} (h : d.taskList.Distinct) : d.toTree.Storable p := by
  have hlist : Tree.Storable p (.map (d.taskList.mapValues fun _ role => .text role)) :=
    Tree.storable_mapValues h fun _ role _ => htext role
  rw [toTree, Tree.storable_map]
  split
  · simp [htext]
  · simp [htext, hlist]

/-- A connection has the trees of its edge, and is otherwise made of texts. -/
theorem Connection.storable {c : Connection}
    (h : ∀ t ∈ c.transport.toList ++ c.dataType.toList ++ c.size.toList, t.Storable p) :
    c.toTree.Storable p := by
  simp only [List.forall_mem_append, Option.mem_toList] at h
  have hend : ∀ task port, (endpointTree task port).Storable p := fun task port => by
    rw [endpointTree, Tree.storable_map]
    simp [htext]
  rw [toTree, Tree.storable_map]
  -- optional fields are left out or come in the order in which they are listed
  constructor
  · simp only [List.map_append, List.map_cons, List.map_nil]
    refine List.Nodup.sublist ((((List.Sublist.refl _).append (keys_optionalField _ _ _)).append
      (keys_optionalField _ _ _)).append (keys_optionalField _ _ _)) ?_
    simp
  · simp only [List.forall_mem_append, List.forall_mem_cons, forall_mem_optionalField]
    simpa [hend] using h

/-- The document of a descriptor can be kept in a text if the documents of its parts can. -/
theorem Descriptor.storable {d : Descriptor} (hdeployments : d.deployments.Distinct)
    (htasks : d.tasks.Distinct)
    (hlists : ∀ name x, d.deployments.get? name = some x → x.taskList.Distinct)
    (hconfigs : ∀ name t, d.tasks.get? name = some t → Tree.Storable p (.map t.config))
    (hconnections : ∀ c ∈ d.connections.getD [],
      ∀ t ∈ c.transport.toList ++ c.dataType.toList ++ c.size.toList, t.Storable p) :
    d.toTree.Storable p := by
  have hfirst : Tree.Storable p (.map (d.deployments.mapValues fun _ x => x.toTree)) :=
    Tree.storable_mapValues hdeployments fun name x hx =>
      Deployment.storable htext (hlists name x hx)
  have hsecond : Tree.Storable p (.map (d.tasks.mapValues fun _ x => x.toTree)) :=
    Tree.storable_mapValues htasks fun name t ht => TaskEntry.storable htext (hconfigs name t ht)
  rw [toTree, Tree.storable_map]
  cases hd : d.connections with
  | none => simp [hfirst, hsecond]
  | some l =>
    rw [hd] at hconnections
    -- numbers as keys are distinct
    have hthird : Tree.Storable p (.map ⟨numbered 0 (l.map Connection.toTree)⟩) :=
      numbered_storable (List.forall_mem_map.mpr fun c hc =>
        Connection.storable htext (hconnections c hc))
    simp [hfirst, hsecond, hthird]

/-- **A compiled descriptor can be kept in a text** if the trees that it takes over can. Its own
keys are distinct because the names of nodes are, and all that it adds is text. -/
theorem compile_storable {g : Graph} {o : CompileOptions} (hwf : g.WellFormed) {c : Compiled}
    (h : g.compile o = .ok c) (htrees : ∀ t ∈ g.exported o, t.Storable p) :
    c.descriptor.toTree.Storable p := by
  have hvalid := valid_of_compile h
  obtain ⟨d, hplaced, rfl⟩ := compile_placed hwf h
  simp only [exported, List.forall_mem_append, List.forall_mem_flatMap] at htrees
  obtain ⟨hdata, hedges⟩ := htrees
  -- the tasks are taken over as they have been placed
  have htasks : d.tasks.Distinct := by
    rw [hplaced.tasks]
    exact hwf.filter_entries_nodup o.isTask Node.taskEntry
  refine Descriptor.storable htext (finish_deployments_distinct hplaced) htasks ?_ ?_ ?_
  · intro name x hx
    rw [OrderedMap.Distinct, finish_taskList hwf hvalid hplaced hx]
    exact hosted_names_nodup hwf name
  · intro name t ht
    have hmem : (name, t) ∈ d.tasks.entries := (htasks.get?_eq_some_iff name t).mp ht
    rw [hplaced.tasks] at hmem
    obtain ⟨n, hn, heq⟩ := List.mem_map.mp hmem
    cases heq
    exact taskConfig_storable fun t ht => hdata n hn t (Option.mem_toList.mpr ht)
  · rw [finish_connections_getD hwf hplaced]
    refine List.forall_mem_map.mpr fun e he => ?_
    simp only [List.forall_mem_append]
    exact hedges e he

end Texts
end ModelGraph
