import ModelGraph.Proofs.Resolution.Expansion
import ModelGraph.Proofs.Resolution.Journal

/-!
# What a failed call leaves

A call that fails takes its nodes and edges out of the graph again. A node that is taken out takes
every edge with it that touches it, and a dangling edge may have been waiting for a node of this
name. The types that the call has registered stay. So the graph is not always what it was.

- `Graph.Prepared`: no edge waits for a node, and all types that may be needed are registered.
- `LeftByFailure`: what the graph is after a failed call. A prepared graph is what it was.
- `failed_call_leaves`: this holds of every failed call.
- `frayedGraph_not_restored`: a failed call that takes an edge away and leaves a type behind.
-/

namespace ModelGraph

open Progress ModelGraph.Graph

/-! ## Types -/

/-- The types that an expansion may register are registered: that of terminal nodes, and those that
the library can load for the control subgraphs of the occurrences. -/
structure Graph.HasTypesFor (g : Graph) (library : SubgraphLibrary) (occurs : Occurrence → Prop) :
    Prop where
  terminal : g.hasNodeType terminalType = true
  control : ∀ o, occurs o → ∀ c, o.fragment.control = some c → ∀ t, library.load c = .ok t →
    g.hasNodeType c = true

/-- Types that are registered stay registered. -/
theorem Graph.HasTypesFor.grows {g g' : Graph} {library : SubgraphLibrary}
    {occurs : Occurrence → Prop} (h : g.HasTypesFor library occurs) (hg : g.Grows g') :
    g'.HasTypesFor library occurs where
  terminal := hg.types _ h.terminal
  control := fun o ho c hc t ht => hg.types _ (h.control o ho c hc t ht)

variable {sources : Sources} {occurs : Occurrence → Prop} {g : Graph} {p p' : Progress}

/-- A step registers no type where all are registered. -/
theorem Progress.Step.types_eq (h : Step sources occurs p p')
    (htypes : p.graph.HasTypesFor sources.library occurs) : p'.graph.types = p.graph.types := by
  -- the two kinds of steps that register a type do so only where it is new
  cases h with
  | registerTerminal hnew =>
    rw [htypes.terminal] at hnew
    cases hnew
  | registerControl ho hc hnew hload =>
    rw [htypes.control _ ho _ hc _ hload] at hnew
    cases hnew
  | ask _ _ _ => rw [asked_graph]
  | terminal _ _ _ | control _ _ _ _ | edge _ _ _ _ _ _ | miss => rfl

/-- A run registers no type where all are registered. -/
theorem Progress.Steps.types_eq (h : Steps sources occurs p p')
    (htypes : p.graph.HasTypesFor sources.library occurs) : p'.graph.types = p.graph.types := by
  induction h with
  | refl => rfl
  | @tail q q' hsteps hstep ih =>
    have hgrows : p.graph.Grows q.graph := Steps.grows hsteps
    exact (hstep.types_eq (htypes.grows hgrows)).trans ih

/-- A registered type stays what it is in a run. -/
theorem Progress.Steps.nodeType?_eq_some (hlib : sources.library.NamesTypes)
    (h : Steps sources occurs p p') {name : String} {t : NodeType}
    (ht : p.graph.nodeType? name = some t) : p'.graph.nodeType? name = some t := by
  induction h with
  | refl => exact ht
  | tail _ hstep ih => exact hstep.nodeType?_eq_some hlib ih

/-! ## Edges -/

/-- The edges that remain are the old ones that touch none of the nodes taken out. -/
theorem Graph.mem_edgesApart {edges : List Edge} {nodes : List Node} {e : Edge} :
    e ∈ edgesApart edges nodes ↔ e ∈ edges ∧ ∀ n ∈ nodes, e.touches n.name = false := by
  simp [edgesApart]

/-- An edge between existing nodes does not touch a name that no node has. -/
theorem Graph.touches_eq_false {e : Edge} {name : String}
    (hfrom : g.hasNode e.ends.fromNode = true) (hto : g.hasNode e.ends.toNode = true)
    (hnew : g.hasNode name = false) : e.touches name = false := by
  -- both ends are nodes, and the name is none
  have hfromNe : e.ends.fromNode ≠ name := by
    rintro rfl
    rw [hnew] at hfrom
    cases hfrom
  have htoNe : e.ends.toNode ≠ name := by
    rintro rfl
    rw [hnew] at hto
    cases hto
  simp [Edge.touches, hfromNe, htoNe]

/-- Where all edges are between existing nodes, all of them stay. -/
theorem Graph.edgesApart_eq_self {nodes : List Node}
    (hends : ∀ e ∈ g.edges, g.hasNode e.ends.fromNode = true ∧ g.hasNode e.ends.toNode = true)
    (hnew : ∀ n ∈ nodes, g.hasNode n.name = false) : edgesApart g.edges nodes = g.edges := by
  refine List.filter_eq_self.mpr fun e he => List.all_eq_true.mpr fun n hn => ?_
  obtain ⟨hfrom, hto⟩ := hends e he
  rw [touches_eq_false hfrom hto (hnew n hn)]
  rfl

/-! ## Failed calls -/

/-- A graph that a failed call cannot harm: every edge joins nodes that exist, and the types that
may be needed are registered. -/
structure Graph.Prepared (g : Graph) (library : SubgraphLibrary) (occurs : Occurrence → Prop) :
    Prop where
  ends : ∀ e ∈ g.edges, g.hasNode e.ends.fromNode = true ∧ g.hasNode e.ends.toNode = true
  types : g.HasTypesFor library occurs

/-- What a graph is after a failed call, where it was `g` before. Taking back the journal gives the
old nodes. It may take more edges than have been added, since a node takes along every edge at it,
and it takes back no types. -/
structure LeftByFailure (library : SubgraphLibrary) (occurs : Occurrence → Prop) (g g' : Graph) :
    Prop where
  /-- The nodes are what they were. -/
  nodes : g'.nodes = g.nodes
  /-- The edges that remain, in their order, are those that touch none of some new names. -/
  edges : ∃ added : List String, (∀ name ∈ added, g.hasNode name = false) ∧
    g'.edges = g.edges.filter fun e => added.all fun name => !e.touches name
  /-- An edge between nodes that exist remains. -/
  joined : ∀ e ∈ g.edges, g.hasNode e.ends.fromNode = true → g.hasNode e.ends.toNode = true →
    e ∈ g'.edges
  /-- The registered types stay what they are. -/
  oldTypes : ∀ name t, g.nodeType? name = some t → g'.nodeType? name = some t
  /-- Every other type is one that the expansion has registered. -/
  newTypes : ∀ name t, g'.nodeType? name = some t →
    g.nodeType? name = some t ∨ IsAddedType library occurs name t
  /-- A prepared graph is what it was. -/
  restored : g.Prepared library occurs → g' = g

/-- A call that has not done anything leaves the graph as it was. -/
theorem LeftByFailure.unchanged (library : SubgraphLibrary) (occurs : Occurrence → Prop)
    (g : Graph) : LeftByFailure library occurs g g where
  nodes := rfl
  edges := ⟨[], by simp, (List.filter_eq_self.mpr (by simp)).symm⟩
  joined := fun _ he _ _ => he
  oldTypes := fun _ _ ht => ht
  newTypes := fun _ _ ht => .inl ht
  restored := fun _ => rfl

/-- What is left when the additions of a run have been taken back. Only removing the added nodes can
do harm, to edges that ended at their names before they were added. -/
theorem rollBack_left (hlib : sources.library.NamesTypes) {cache : Table ComponentId Tree}
    (h : Steps sources occurs { graph := g, cache } p) :
    LeftByFailure sources.library occurs g p.rollBack := by
  obtain ⟨nodes, edges, hjournal⟩ := h.journal (.start g cache)
  have hgrown : GrownBy sources.library occurs g p.graph :=
    GrownBy.steps hlib h (.refl _ _ g)
  have hnew : ∀ n ∈ nodes, g.hasNode n.name = false := fun n hn =>
    (hasNode_eq_false_iff _ _).mpr (hjournal.newNodes.apart n hn)
  -- the undo leaves the old nodes, the edges apart from the new ones, and all types of the run
  rw [rollBack_eq hjournal]
  exact {
    nodes := rfl
    edges := by
      refine ⟨nodes.map Node.name, fun name hname => ?_, ?_⟩
      · obtain ⟨n, hn, rfl⟩ := List.mem_map.mp hname
        exact hnew n hn
      · simp only [edgesApart, List.all_map, Function.comp_def]
    joined := fun e he hfrom hto =>
      mem_edgesApart.mpr ⟨he, fun n hn => touches_eq_false hfrom hto (hnew n hn)⟩
    oldTypes := fun name t ht => h.nodeType?_eq_some hlib ht
    newTypes := hgrown.types
    restored := by
      -- no edge waits for a new name, and the run has found all its types registered
      intro hprepared
      have htypes : p.graph.types = g.types := h.types_eq hprepared.types
      show (⟨g.nodes, edgesApart g.edges nodes, p.graph.types⟩ : Graph) = g
      rw [edgesApart_eq_self hprepared.ends hnew, htypes] }

/-- What a failed call inside the components of a path leaves. -/
theorem resolveWithin_left (s : Session) (hlib : sources.library.NamesTypes)
    (path : List ComponentId) (g : Graph) (document : Tree) (pre : String) {e : ResolveError}
    (h : (s.resolveWithin sources path g document pre).result = .error e) :
    LeftByFailure sources.library
      (Occurrence.Reaches (s.lookup sources) ⟨Fragment.ofDocument document, pre⟩) g
      (s.resolveWithin sources path g document pre).graph := by
  have hsteps := run_steps s sources path g (Fragment.ofDocument document) pre
  unfold Session.resolveWithin at h ⊢
  rcases hrun : s.run sources path g (Fragment.ofDocument document) pre with ⟨_ | _, p⟩
  · rw [hrun] at hsteps
    exact rollBack_left hlib hsteps
  · -- a run that comes to its end is not rolled back
    rw [hrun] at h
    cases h

/-- **What a failed call leaves**, whether it resolves a fragment or converts a definition. No edge
between existing nodes is lost, and no registered type is changed. If no edge waits for a node and
all types that may be needed are registered, then the graph is exactly what it was. -/
theorem failed_call_leaves (s : Session) (sources : Sources) (hlib : sources.library.NamesTypes)
    (g : Graph) (view : View) (document : Tree) (pre : String) :
    (∀ e, (s.resolve sources g document pre).result = .error e →
      LeftByFailure sources.library
        (Occurrence.Reaches (s.lookup sources) ⟨Fragment.ofDocument document, pre⟩) g
        (s.resolve sources g document pre).graph) ∧
    ∀ e, (s.convert sources view document).result = .error e →
      LeftByFailure sources.library
        (Occurrence.Reaches sources.definitions.answer ⟨Fragment.ofDocument document, ""⟩)
        view.graph (s.convert sources view document).graph := by
  refine ⟨fun e h => resolveWithin_left s hlib [] g document pre h, fun e h => ?_⟩
  unfold Session.convert at h ⊢
  split
  · rename_i hkind
    rw [if_pos hkind] at h
    exact resolveWithin_left s.clear hlib _ view.graph document "" h
  · -- a view of another kind is refused before anything is done
    exact .unchanged _ _ view.graph

/-- A component that refers to itself. -/
def knotSources : Sources where
  definitions := (MemoryStore.empty.insert (definitionId "knot")
    (componentDocument [("again", "knot")] [])).source
  library := .ofDocuments OrderedMap.empty

/-- A robot with an actuator and a component that cannot be resolved. -/
def knottedRobot : Tree := componentDocument [("wheel", terminalModel), ("tie", "knot")] []

/-- A control graph with a wheel in it and all types that the robot needs. -/
def wheeledGraph : Graph where
  nodes := [{ name := "drive", domain := controlDomain, typeName := "PIPE",
              outputs := [.named "speed"] },
            NodeType.terminal.instantiate "rudder"]
  edges := [.control ⟨"drive", "speed", "rudder", terminalInput⟩]
  types := OrderedMap.empty.insert terminalType NodeType.terminal

set_option maxRecDepth 10000 in
/-- The wheeled graph is what it was after the robot could not be resolved, and after it could not
be converted. -/
theorem wheeledGraph_restored :
    (Session.fresh.resolve knotSources wheeledGraph knottedRobot "").graph = wheeledGraph ∧
      (Session.fresh.convert knotSources ⟨.control, wheeledGraph⟩ knottedRobot).graph =
        wheeledGraph := by
  have hlib : knotSources.library.NamesTypes :=
    SubgraphLibrary.ofDocuments_namesTypes OrderedMap.empty
  obtain ⟨hresolve, hconvert⟩ := failed_call_leaves Session.fresh knotSources hlib wheeledGraph
    ⟨.control, wheeledGraph⟩ knottedRobot ""
  have hends : ∀ e ∈ wheeledGraph.edges, wheeledGraph.hasNode e.ends.fromNode = true ∧
      wheeledGraph.hasNode e.ends.toNode = true := by decide
  have hprepared : wheeledGraph.Prepared knotSources.library
      (Occurrence.Reaches knotSources.definitions.answer
        ⟨Fragment.ofDocument knottedRobot, ""⟩) := by
    -- the library has no subgraphs
    refine ⟨hends, by decide, fun o _ c _ t ht => ?_⟩
    cases ht
  obtain ⟨e, he⟩ : ∃ e, (Session.fresh.resolve knotSources wheeledGraph knottedRobot "").result =
      .error e := exists_error_of_toOption (by decide +kernel)
  obtain ⟨e', he'⟩ : ∃ e, (Session.fresh.convert knotSources ⟨.control, wheeledGraph⟩
      knottedRobot).result = .error e := exists_error_of_toOption (by decide +kernel)
  exact ⟨(hresolve e he).restored hprepared, (hconvert e' he').restored hprepared⟩

/-- A control graph with an edge that waits for a wheel, and no registered types. -/
def frayedGraph : Graph where
  nodes := [{ name := "drive", domain := controlDomain, typeName := "PIPE",
              outputs := [.named "speed"] }]
  edges := [.control ⟨"drive", "speed", "wheel", terminalInput⟩]
  types := OrderedMap.empty

set_option maxRecDepth 10000 in
/-- A failed call does not restore the frayed graph: its edge is lost, and the type of terminal
nodes stays registered. -/
theorem frayedGraph_not_restored :
    let r := Session.fresh.resolve knotSources frayedGraph knottedRobot ""
    frayedGraph.WellFormed ∧ (∃ e, r.result = .error e) ∧
      (∃ e ∈ frayedGraph.edges, e ∉ r.graph.edges) ∧
      frayedGraph.hasNodeType terminalType = false ∧ r.graph.hasNodeType terminalType = true := by
  refine ⟨⟨by decide, by decide⟩, exists_error_of_toOption (by decide +kernel), ?_, by decide,
    by decide +kernel⟩
  exact ⟨.control ⟨"drive", "speed", "wheel", terminalInput⟩, by decide, by decide +kernel⟩

end ModelGraph
