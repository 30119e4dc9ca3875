import ModelGraph.Proofs.Resolution.Run

/-!
# The journal of a call

At every point of an expansion the journal lists exactly what the graph has gained, in the order in
which it was added. A call that succeeds therefore reports what it has added, and a call that fails
finds in the journal all that it has to take back.

- `JournalOf`: the journal matches the graph. Every step keeps it.
- `rollBack_eq`: what is left after all additions have been taken back.
- `resolveWithin_journal_exact`: a call adds what it reports, and a failed call adds nothing.
-/

namespace ModelGraph

open Progress ModelGraph.Graph

/-- The progress of a call on a graph, which has gained some nodes and edges since. All of them are
new, and the journal lists them. The counters of a report are the lengths of the journal, so a
report is exact as soon as the journal is. -/
structure JournalOf (g : Graph) (p : Progress) (nodes : List Node) (edges : List Edge) : Prop where
  graph_nodes : p.graph.nodes = g.nodes ++ nodes
  graph_edges : p.graph.edges = g.edges ++ edges
  addedNodes : p.addedNodes = nodes.map Node.name
  addedEdges : p.addedEdges = edges
  newNodes : AddsNew Node.name g.nodes nodes
  newEdges : AddsNew Edge.ends g.edges edges

namespace JournalOf

variable {g : Graph} {p p' : Progress} {nodes : List Node} {edges : List Edge}

/-- At the start of a call the journal is empty. -/
theorem start (g : Graph) (cache : Table ComponentId Tree) :
    JournalOf g { graph := g, cache } [] [] where
  graph_nodes := (List.append_nil _).symm
  graph_edges := (List.append_nil _).symm
  addedNodes := rfl
  addedEdges := rfl
  newNodes := .nil _ _
  newEdges := .nil _ _

/-- A new node goes to the end of the graph and of the journal. -/
theorem withNode (h : JournalOf g p nodes edges) {n : Node}
    (hnew : p.graph.hasNode n.name = false) :
    JournalOf g (p.withNode n) (nodes ++ [n]) edges where
  graph_nodes := by simp [Progress.withNode, h.graph_nodes]
  graph_edges := h.graph_edges
  addedNodes := by simp [Progress.withNode, h.addedNodes]
  addedEdges := h.addedEdges
  newNodes := by
    -- a node that the graph has not is neither an old one nor one added before
    refine h.newNodes.concat fun m hm => ?_
    rw [← h.graph_nodes] at hm
    exact (hasNode_eq_false_iff _ _).mp hnew m hm
  newEdges := h.newEdges

/-- A new edge goes to the end of the graph and of the journal. -/
theorem withEdge (h : JournalOf g p nodes edges) {e : Edge} (hnew : p.graph.hasEdge e = false) :
    JournalOf g (p.withEdge e) nodes (edges ++ [e]) where
  graph_nodes := h.graph_nodes
  graph_edges := by simp [Progress.withEdge, h.graph_edges]
  addedNodes := h.addedNodes
  addedEdges := by simp [Progress.withEdge, h.addedEdges]
  newNodes := h.newNodes
  newEdges := by
    refine h.newEdges.concat fun f hf => ?_
    rw [← h.graph_edges] at hf
    exact (hasEdge_eq_false_iff _ _).mp hnew f hf

/-- Nothing is added where nodes, edges and the journal stay the same. -/
theorem of_eq (h : JournalOf g p nodes edges) (hnodes : p'.graph.nodes = p.graph.nodes)
    (hedges : p'.graph.edges = p.graph.edges) (haddedNodes : p'.addedNodes = p.addedNodes)
    (haddedEdges : p'.addedEdges = p.addedEdges) : JournalOf g p' nodes edges where
  graph_nodes := hnodes.trans h.graph_nodes
  graph_edges := hedges.trans h.graph_edges
  addedNodes := haddedNodes.trans h.addedNodes
  addedEdges := haddedEdges.trans h.addedEdges
  newNodes := h.newNodes
  newEdges := h.newEdges

end JournalOf

/-! ## Steps -/

variable {sources : Sources} {occurs : Occurrence → Prop} {g : Graph} {p p' : Progress}

/-- A step adds to the journal what it adds to the graph. -/
theorem Progress.Step.journal (h : Step sources occurs p p') {nodes : List Node}
    {edges : List Edge} (hp : JournalOf g p nodes edges) :
    ∃ nodes' edges', JournalOf g p' nodes' edges' := by
  cases h with
  | registerTerminal _ | registerControl _ _ _ _ | miss =>
    exact ⟨nodes, edges, hp.of_eq rfl rfl rfl rfl⟩
  | terminal _ _ hnew | control _ _ _ hnew => exact ⟨_, edges, hp.withNode hnew⟩
  | edge _ _ _ _ _ hnew => exact ⟨nodes, _, hp.withEdge hnew⟩
  | ask _ _ _ => exact ⟨nodes, edges, hp.of_eq (by simp) (by simp) (by simp) (by simp)⟩

/-- At every point of a run the journal matches the graph. -/
theorem Progress.Steps.journal (h : Steps sources occurs p p') {nodes : List Node}
    {edges : List Edge} (hp : JournalOf g p nodes edges) :
    ∃ nodes' edges', JournalOf g p' nodes' edges' := by
  induction h with
  | refl => exact ⟨nodes, edges, hp⟩
  | tail _ hstep ih =>
    obtain ⟨_, _, hq⟩ := ih
    exact hstep.journal hq

/-! ## Taking back -/

/-- Without the additions of the journal a graph is what it was, except that the registered types
stay and that the old edges which touch an added node are gone. -/
theorem rollBack_eq {nodes : List Node} {edges : List Edge} (h : JournalOf g p nodes edges) :
    p.rollBack = { p.graph with nodes := g.nodes, edges := edgesApart g.edges nodes } := by
  -- the graph as the old one with the additions of the journal
  have hgraph : p.graph =
      { ({ p.graph with nodes := g.nodes ++ nodes } : Graph) with edges := g.edges ++ edges } := by
    rw [← h.graph_nodes, ← h.graph_edges]
  -- edges go first: a node that is taken out would take its edges with it
  have hedges := foldl_removeEdge_added { p.graph with nodes := g.nodes ++ nodes } h.newEdges
  have hnodes := foldl_removeNode_added { p.graph with edges := g.edges } h.newNodes
  rw [← hgraph] at hedges
  rw [rollBack, h.addedEdges, h.addedNodes, hedges]
  exact hnodes

/-! ## Calls -/

/-- The journal at the end of an expansion. -/
theorem Session.run_journal (s : Session) (sources : Sources) (path : List ComponentId)
    (g : Graph) (f : Fragment) (pre : String) :
    ∃ nodes edges, JournalOf g (s.run sources path g f pre).2 nodes edges :=
  (run_steps s sources path g f pre).journal (.start g s.cache)

/-- **A call adds exactly what it reports, and a failed call adds nothing.** After a call that
succeeds the old nodes and edges come first, unchanged and in their order, followed by as many new
ones as the report counts. After a call that fails there are exactly the old nodes, and of the edges
only old ones, in their order. Resolving a fragment is a call inside no component, and converting a
definition is one inside the component that it declares. -/
theorem resolveWithin_journal_exact (s : Session) (sources : Sources) (path : List ComponentId)
    (g : Graph) (document : Tree) (pre : String) :
    let r := s.resolveWithin sources path g document pre
    match r.result with
    | .ok report =>
      ∃ nodes edges, r.graph.nodes = g.nodes ++ nodes ∧ r.graph.edges = g.edges ++ edges ∧
        nodes.length = report.nodesAdded ∧ edges.length = report.edgesAdded ∧
        (∀ n ∈ nodes, g.hasNode n.name = false) ∧ ∀ e ∈ edges, g.hasEdge e = false
    | .error _ => r.graph.nodes = g.nodes ∧ r.graph.edges.Sublist g.edges := by
  obtain ⟨nodes, edges, hjournal⟩ :=
    s.run_journal sources path g (Fragment.ofDocument document) pre
  simp only [Session.resolveWithin]
  rcases hrun : s.run sources path g (Fragment.ofDocument document) pre with ⟨_ | _, p⟩ <;>
    simp only [hrun] at hjournal ⊢
  -- on failure all that was added is taken back, with the edges at these names
  · rw [rollBack_eq hjournal]
    exact ⟨rfl, edgesApart_sublist g.edges nodes⟩
  -- on success the report counts what the journal lists
  · refine ⟨nodes, edges, hjournal.graph_nodes, hjournal.graph_edges, ?_, ?_, fun n hn => ?_,
      fun e he => ?_⟩
    · simp [Progress.report, hjournal.addedNodes]
    · simp [Progress.report, hjournal.addedEdges]
    · exact (hasNode_eq_false_iff _ _).mpr (hjournal.newNodes.apart n hn)
    · exact (hasEdge_eq_false_iff _ _).mpr (hjournal.newEdges.apart e he)

end ModelGraph
