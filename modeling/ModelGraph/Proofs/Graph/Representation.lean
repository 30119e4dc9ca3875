import ModelGraph.Graph.Edit
import ModelGraph.Proofs.Except
import ModelGraph.Proofs.Graph.Indexed
import ModelGraph.Proofs.Graph.Parts
import ModelGraph.Proofs.Resolution.Journal

/-!
# The representation of graphs

Whatever is called on a graph, and whether it succeeds or not, what happens to the graph is a series
of changes of single nodes, edges and types. Each of them keeps names and ends unique, and keeps a
table of positions in step. So all of this holds of every graph that can come about.

- `GraphCall`, `Reached`: the calls on a graph, and the graphs that come about.
- `ChangesTo`: one graph becomes another by a series of changes. Every call is one.
- `WellFormed.changeVersion_eq`: the version of a node is changed as a whole or not at all.
- `Represented`: what holds of every graph that comes about.
- `representation_kept`: it does, and a document is read as a graph exactly if it is one.
-/

namespace ModelGraph

/-- A call on a graph. A resolver brings its session and its sources with it, and takes its changes
back if it fails. -/
inductive GraphCall where
  | addNode (n : Node)
  | removeNode (name : String)
  | addEdge (e : Edge)
  | removeEdge (e : Edge)
  | setData (name : String) (data : Tree)
  | register (t : NodeType)
  | changeVersion (name version : String)
  | setMergeMode (node port : String) (mode : MergeMode)
  | setPortConfig (node port : String) (side : Direction) (config : Tree)
  | resolve (session : Session) (sources : Sources) (document : Tree) (pre : String)
  | convert (session : Session) (sources : Sources) (kind : Kind) (definition : Tree)

namespace Graph

/-- The graph after a call. -/
def call (g : Graph) : GraphCall → Graph
  | .addNode n => unlessRefused g (g.addNode n)
  | .removeNode name => g.removeNode name
  | .addEdge e => unlessRefused g (g.addEdge e)
  | .removeEdge e => g.removeEdge e
  | .setData name data => unlessRefused g (g.setData name data)
  | .register t => g.register t
  | .changeVersion name version => unlessRefused g (g.changeVersion name version)
  | .setMergeMode node port mode => unlessRefused g (g.setMergeMode node port mode)
  | .setPortConfig node port side config => unlessRefused g (g.setPortConfig node port side config)
  | .resolve session sources document pre => (session.resolve sources g document pre).graph
  | .convert session sources kind definition =>
    (session.convert sources ⟨kind, g⟩ definition).graph

/-- A graph that comes about from nothing or from a document by a series of calls. There is no other
way to make one, so what holds of these graphs holds of all of them. -/
inductive Reached : Graph → Prop where
  | empty : Reached empty
  | read {nodes : List Node} {edges : List Edge} {g : Graph} (h : ofParts nodes edges = .ok g) :
      Reached g
  | call {g : Graph} (h : Reached g) (c : GraphCall) : Reached (g.call c)

variable {g g' g'' : Graph} {name version : String}

/-! ## Series of changes -/

/-- The first graph becomes the second one by a series of changes. Calls differ in what they change
and in when they stop, but each of them is such a series, so what every change keeps is kept by
every call. -/
def ChangesTo (g g' : Graph) : Prop := ∃ cs : List Change, cs.foldl apply g = g'

namespace ChangesTo

/-- Nothing needs to be changed. -/
theorem refl (g : Graph) : g.ChangesTo g := ⟨[], rfl⟩

/-- A change is a series of one. -/
theorem single (c : Change) : g.ChangesTo (g.apply c) := ⟨[c], rfl⟩

/-- Series may follow each other. -/
theorem trans (h : g.ChangesTo g') (h' : g'.ChangesTo g'') : g.ChangesTo g'' := by
  obtain ⟨cs, rfl⟩ := h
  obtain ⟨cs', rfl⟩ := h'
  exact ⟨cs ++ cs', List.foldl_append⟩

/-- What is a series of changes for every element of a list is one for the list. -/
theorem foldl {α : Type} {f : Graph → α → Graph} (hf : ∀ g a, ChangesTo g (f g a)) (l : List α) :
    ∀ g : Graph, g.ChangesTo (l.foldl f g) := by
  induction l with
  | nil => exact refl
  | cons a rest ih => exact fun g => (hf g a).trans (ih (f g a))

/-- The same for steps that may be refused, if none of them is. -/
theorem foldlM {α : Type} {f : Graph → α → Except GraphError Graph}
    (hf : ∀ {g a g'}, f g a = .ok g' → ChangesTo g g') (l : List α) :
    ∀ {g g' : Graph}, l.foldlM f g = .ok g' → g.ChangesTo g' := by
  induction l with
  | nil =>
    intro g g' h
    cases h
    exact refl g
  | cons a rest ih =>
    intro g g' h
    obtain ⟨q, ha, hrest⟩ := foldlM_cons_eq_ok.mp h
    exact (hf ha).trans (ih hrest)

/-- Changing a node without its name is a change. -/
theorem updateNode {f : Node → Node} (hf : ∀ n, (f n).name = n.name) :
    g.ChangesTo (g.updateNode name f) :=
  single (.updateNode name f hf)

/-- So is adding a node that is not refused. -/
theorem addNode {n : Node} (h : g.addNode n = .ok g') : g.ChangesTo g' :=
  ⟨[.addNode n], congrArg (unlessRefused g) h⟩

/-- So is adding an edge that is not refused. -/
theorem addEdge {e : Edge} (h : g.addEdge e = .ok g') : g.ChangesTo g' :=
  ⟨[.addEdge e], congrArg (unlessRefused g) h⟩

/-- A call that may be refused changes the graph only if it is not. -/
theorem unlessRefused {r : Except GraphError Graph} (h : ∀ g', r = .ok g' → g.ChangesTo g') :
    g.ChangesTo (unlessRefused g r) := by
  cases r with
  | error e => exact refl g
  | ok g' => exact h g' rfl

/-- A graph is made from its parts by adding them one after the other. -/
theorem ofParts {nodes : List Node} {edges : List Edge} (h : Graph.ofParts nodes edges = .ok g) :
    Graph.empty.ChangesTo g := by
  obtain ⟨q, hnodes, hedges⟩ := bind_eq_ok.mp h
  exact (foldlM addNode nodes hnodes).trans (foldlM addEdge edges hedges)

end ChangesTo

/-! ## Edits -/

/-- Setting the data of a node is a change. -/
theorem setData_changes {data : Tree} (h : g.setData name data = .ok g') : g.ChangesTo g' := by
  unfold setData at h
  split at h
  · cases h
    exact .updateNode fun _ => rfl
  · cases h

/-- Changing the version of a node is a series of changes: the node is taken out, and it and its
edges are added again. -/
theorem changeVersion_changes (h : g.changeVersion name version = .ok g') : g.ChangesTo g' := by
  unfold changeVersion at h
  split at h
  · cases h
  · rename_i old _
    split at h
    · cases h
    · rename_i t _
      -- the node goes with its edges, then the new one comes, and then the edges come back
      have hremove : g.ChangesTo (g.removeNode name) := .single (.removeNode name)
      obtain ⟨q, hadd, h⟩ := bind_eq_ok.mp h
      exact (hremove.trans (.addNode hadd)).trans (.foldlM .addEdge _ h)

/-- A change at a port is the change of one node. -/
theorem updateAtPort_changes {port : String} {side : Direction} {f : Node → Node}
    (hf : ∀ n, (f n).name = n.name) (h : g.updateAtPort name port side f = .ok g') :
    g.ChangesTo g' := by
  unfold updateAtPort at h
  split at h
  · cases h
  · split at h
    · cases h
    · cases h
      exact .updateNode hf

/-- Where names are unique, taking out the first element with a name takes out all of them. -/
theorem eraseP_name_eq_filter {nodes : List Node} (h : (nodes.map Node.name).Nodup)
    (name : String) : nodes.eraseP (·.name == name) = nodes.filter (·.name != name) := by
  induction nodes with
  | nil => rfl
  | cons n rest ih =>
    rw [List.map_cons, List.nodup_cons] at h
    by_cases hname : n.name = name
    · -- the others have other names
      have hrest : rest.filter (·.name != name) = rest := by
        refine List.filter_eq_self.mpr fun m hm => bne_iff_ne.mpr fun heq => ?_
        exact h.1 (List.mem_map.mpr ⟨m, hm, heq.trans hname.symm⟩)
      simp [hname, hrest]
    · simp [hname, ih h.2]

/-- A node is taken out together with the edges that touch it, and nothing else is changed. -/
theorem WellFormed.removeNode_eq (h : g.WellFormed) (hname : g.hasNode name = true) :
    g.removeNode name = { g with
      nodes := g.nodes.filter (·.name != name)
      edges := g.edges.filter (!·.touches name) } := by
  rw [removeNode, if_pos hname, eraseP_name_eq_filter h.1]

/-- The version of a node is changed without fail, if there are the node and a type for it. The new
node and the edges that touch it come last. -/
theorem WellFormed.changeVersion_eq (h : g.WellFormed) {old : Node} {t : NodeType}
    (hold : g.node? name = some old) (ht : g.versionedType? old.modelName version = some t) :
    g.changeVersion name version = .ok { g with
      nodes := g.nodes.filter (·.name != name) ++ [renewed t old version]
      edges := g.edges.filter (!·.touches name) ++
        (g.edges.filter (·.touches name)).map Edge.withoutLayout } := by
  have hname : g.hasNode name = true := by rw [hasNode, hold]; rfl
  have hrenewed : (renewed t old version).name = name := by
    change old.name = name
    exact name_of_node? hold
  -- the name is free once the old node is gone
  have hfree : (renewed t old version).name ∉ (g.nodes.filter (·.name != name)).map Node.name := by
    rw [hrenewed]
    simp
  -- the edges that come back had other ends than those that have stayed
  have hends : ((g.edges.filter (!·.touches name) ++
      (g.edges.filter (·.touches name)).map Edge.withoutLayout).map Edge.ends).Nodup := by
    have hperm := (List.filter_append_perm (·.touches name) g.edges).map Edge.ends
    refine (List.Perm.nodup_iff ?_).mp h.2
    refine hperm.symm.trans ?_
    rw [List.map_append, List.map_append, List.map_map]
    exact List.perm_append_comm
  simp only [changeVersion, hold, ht, h.removeNode_eq hname, addNode_eq, if_neg hfree]
  have hkept : ((g.edges.filter (!·.touches name)).map Edge.ends).Nodup :=
    h.2.sublist (List.filter_sublist.map _)
  -- either all the edges come back, or one of them repeats an end, which none does
  rcases foldlM_addEdge (g.nodes.filter (·.name != name) ++ [renewed t old version]) g.types
    ((g.edges.filter (·.touches name)).map Edge.withoutLayout) _ hkept with
    ⟨-, hadd⟩ | ⟨e, hrepeat, -⟩
  · exact hadd
  · exact absurd hends hrepeat.not_nodup

/-- A change of version that fails has not begun: the node is missing, or a type for it. -/
theorem WellFormed.changeVersion_error (h : g.WellFormed) {e : GraphError}
    (herror : g.changeVersion name version = .error e) :
    g.node? name = none ∨
      ∃ old, g.node? name = some old ∧ g.versionedType? old.modelName version = none := by
  cases hold : g.node? name with
  | none => exact .inl rfl
  | some old =>
    cases ht : g.versionedType? old.modelName version with
    | none => exact .inr ⟨old, rfl, ht⟩
    -- with a node and a type the change succeeds
    | some t =>
      rw [h.changeVersion_eq hold ht] at herror
      cases herror

end Graph

/-! ## Resolution -/

/-- A step of an expansion makes one change at most. -/
theorem Progress.Step.changes {sources : Sources} {occurs : Occurrence → Prop} {p p' : Progress}
    (h : Step sources occurs p p') : p.graph.ChangesTo p'.graph := by
  cases h with
  | registerTerminal _ | registerControl _ _ _ _ => exact .single (.register _)
  | terminal _ _ hnew | control _ _ _ hnew => exact .addNode (Graph.addNode_of_new hnew)
  | edge _ _ _ _ _ hnew => exact .addEdge (Graph.addEdge_of_new hnew)
  | ask _ _ _ =>
    rw [asked_graph]
    exact .refl _
  | miss => exact .refl _

/-- So many steps make a series of changes. -/
theorem Progress.Steps.changes {sources : Sources} {occurs : Occurrence → Prop} {p p' : Progress}
    (h : Steps sources occurs p p') : p.graph.ChangesTo p'.graph := by
  induction h with
  | refl => exact .refl _
  | tail _ hstep ih => exact ih.trans hstep.changes

/-- Taking back what has been added is a series of changes. -/
theorem Progress.rollBack_changes (p : Progress) : p.graph.ChangesTo p.rollBack := by
  unfold rollBack
  have hedges := Graph.ChangesTo.foldl (f := Graph.removeEdge) (fun _ e => .single (.removeEdge e))
    p.addedEdges.reverse p.graph
  exact hedges.trans (Graph.ChangesTo.foldl (fun _ name => .single (.removeNode name)) _ _)

/-- A resolver makes changes, and takes them back by changes if it fails. -/
theorem Session.resolveWithin_changes (s : Session) (sources : Sources) (path : List ComponentId)
    (g : Graph) (document : Tree) (pre : String) :
    g.ChangesTo (s.resolveWithin sources path g document pre).graph := by
  have hrun : g.ChangesTo (s.run sources path g (Fragment.ofDocument document) pre).2.graph :=
    (run_steps s sources path g (Fragment.ofDocument document) pre).changes
  unfold Session.resolveWithin
  -- a failure is followed by taking back, which is a series of changes as well
  rcases hend : s.run sources path g (Fragment.ofDocument document) pre with ⟨_ | _, p⟩ <;>
    rw [hend] at hrun
  · exact hrun.trans p.rollBack_changes
  · exact hrun

namespace Graph

variable {g g' : Graph}

/-! ## Calls -/

/-- Every call is a series of changes, also one that is refused or fails on the way. -/
theorem changesTo_call (g : Graph) (c : GraphCall) : g.ChangesTo (g.call c) := by
  cases c with
  -- calls that may be refused change nothing then, and the others are changes themselves
  | addNode n => exact .single (.addNode n)
  | removeNode name => exact .single (.removeNode name)
  | addEdge e => exact .single (.addEdge e)
  | removeEdge e => exact .single (.removeEdge e)
  | setData name data => exact .unlessRefused fun _ => setData_changes
  | register t => exact .single (.register t)
  | changeVersion name version => exact .unlessRefused fun _ => changeVersion_changes
  | setMergeMode node port mode =>
    exact .unlessRefused fun _ => updateAtPort_changes (Node.name_withData _)
  | setPortConfig node port side config =>
    exact .unlessRefused fun _ => updateAtPort_changes (Node.name_withConfig side port _)
  | resolve session sources document pre => exact session.resolveWithin_changes sources [] g _ pre
  | convert session sources kind definition =>
    change g.ChangesTo (session.convert sources ⟨kind, g⟩ definition).graph
    unfold Session.convert
    split
    · exact session.clear.resolveWithin_changes sources _ g definition ""
    · exact .refl g

/-- A graph that comes about is made from the empty one by a series of changes. -/
theorem Reached.changes (h : g.Reached) : Graph.empty.ChangesTo g := by
  induction h with
  | empty => exact .refl _
  | read h => exact .ofParts h
  | call _ c ih => exact ih.trans (changesTo_call _ c)

/-- Further calls lead to graphs that come about as well. -/
theorem Reached.foldl (cs : List GraphCall) :
    ∀ {g : Graph}, g.Reached → (cs.foldl Graph.call g).Reached := by
  induction cs with
  | nil => exact fun h => h
  | cons c rest ih => exact fun h => ih (h.call c)

/-- A change keeps the ends of edges unique. Only adding an edge could break this, and it is refused
for ends that are there. -/
theorem nodup_ends_apply (h : (g.edges.map Edge.ends).Nodup) (c : Change) :
    ((g.apply c).edges.map Edge.ends).Nodup := by
  cases c with
  | addNode n =>
    simp only [apply, addNode]
    split <;> exact h
  | removeNode name =>
    simp only [apply, removeNode]
    split
    · exact h.sublist (List.filter_sublist.map _)
    · exact h
  | updateNode name f _ => exact h
  | addEdge e =>
    obtain ⟨nodes, old, types⟩ := g
    rw [apply, addEdge_eq]
    split
    · exact h
    · -- a new edge has new ends, or it is refused
      rename_i hnew
      simp only [unlessRefused, List.map_append, List.nodup_append]
      refine ⟨h, by simp, fun x hx y hy hxy => ?_⟩
      rw [List.map_cons, List.map_nil, List.mem_singleton] at hy
      exact hnew (hy ▸ hxy ▸ hx)
  | removeEdge e => exact h.sublist (List.eraseP_sublist.map _)
  | register t => exact h

/-- So does a series of changes. -/
theorem nodup_ends_foldl (cs : List Change) :
    ∀ {g : Graph}, (g.edges.map Edge.ends).Nodup →
      ((cs.foldl apply g).edges.map Edge.ends).Nodup := by
  induction cs with
  | nil => exact fun h => h
  | cons c rest ih => exact fun h => ih (nodup_ends_apply h c)

/-! ## Representation -/

/-- What holds of a graph that comes about. The table of positions is compared for every series of
changes that leads to the graph, since how the graph has been made does not show in it. -/
structure Represented (g : Graph) : Prop where
  /-- No two nodes have the same name. -/
  names : (g.nodes.map Node.name).Nodup
  /-- No two edges have the same ends. -/
  ends : (g.edges.map Edge.ends).Nodup
  /-- The graph is made from nothing by a series of changes. -/
  made : empty.ChangesTo g
  /-- Whatever the series of changes is, a table that is kept in step on the way has the names of
  the nodes and no others, each with the position of its node, and it answers as the graph does. -/
  table : ∀ cs : List Change, cs.foldl apply empty = g →
    let i := cs.foldl IndexedGraph.apply IndexedGraph.empty
    i.graph = g ∧
      (∀ name p, i.positions.get? name = some p ↔ ∃ n, g.nodes[p]? = some n ∧ n.name = name) ∧
      ∀ name, i.node? name = g.node? name ∧ i.hasNode name = g.hasNode name
  /-- The node that is found under a name is the only one with the name. -/
  found : ∀ name n, g.node? name = some n ↔ n ∈ g.nodes ∧ n.name = name
  /-- The names that are there are those of the nodes. -/
  has : ∀ name, g.hasNode name = true ↔ name ∈ g.nodes.map Node.name
  /-- A node is taken out together with the edges that touch it; all others stay in their order. -/
  removal : ∀ name, g.hasNode name = true →
    (g.removeNode name).nodes = g.nodes.filter (·.name != name) ∧
      (g.removeNode name).edges = g.edges.filter (!·.touches name) ∧
      ∀ e ∈ (g.removeNode name).edges, e.touches name = false
  /-- Nothing is taken out for a name that no node has. -/
  refusal : ∀ name, g.hasNode name = false → g.removeNode name = g
  /-- A change of version that fails has not begun. -/
  unchanged : ∀ name version e, g.changeVersion name version = .error e →
    g.node? name = none ∨
      ∃ old, g.node? name = some old ∧ g.versionedType? old.modelName version = none

/-- A graph that comes about is represented as it should be. The induction is over the changes since
it began, with one case for each kind of change. -/
theorem Reached.represented (h : g.Reached) : g.Represented := by
  obtain ⟨cs, hcs⟩ := h.changes
  obtain ⟨hexact, hgraph⟩ := IndexedGraph.exact_empty.foldl cs
  have hsame : (cs.foldl IndexedGraph.apply IndexedGraph.empty).graph = g := hgraph.trans hcs
  -- the table that came about with the graph is exact, which makes its names unique
  have hnames : (g.nodes.map Node.name).Nodup := hsame ▸ hexact.names_nodup
  have hends : (g.edges.map Edge.ends).Nodup :=
    hcs ▸ nodup_ends_foldl cs (g := Graph.empty) List.nodup_nil
  have hwf : g.WellFormed := ⟨hnames, hends⟩
  exact {
    names := hnames
    ends := hends
    made := h.changes
    table := fun cs hcs => by
      obtain ⟨hexact, hgraph⟩ := IndexedGraph.exact_empty.foldl cs
      have hsame : (cs.foldl IndexedGraph.apply IndexedGraph.empty).graph = g := hgraph.trans hcs
      refine ⟨hsame, fun name p => ?_, fun name => ?_⟩
      · rw [hexact name p, hsame]
      · rw [hexact.node?_eq, hexact.hasNode_eq, hsame]
        exact ⟨rfl, rfl⟩
    found := fun name n => hwf.node?_eq_some_iff
    has := fun name => by rw [hasNode_iff, List.mem_map]
    removal := fun name hname => by
      rw [hwf.removeNode_eq hname]
      refine ⟨rfl, rfl, fun e he => ?_⟩
      simpa using (List.mem_filter.mp he).2
    refusal := fun name hname => by simp [removeNode, hname]
    unchanged := fun name version e => hwf.changeVersion_error }

/-- **Every graph that comes about is represented as it should be.** From the empty graph or from a
document, after any series of calls, names and ends are unique and a table of positions kept in step
on the way is exact. A document gives a graph if and only if its names and its ends are unique, and
otherwise the first repetition is told, of nodes before edges. -/
theorem representation_kept :
    (∀ g : Graph, g.Reached → g.Represented) ∧
      ∀ (nodes : List Node) (edges : List Edge),
        (∀ g, ofParts nodes edges = .ok g ↔ (nodes.map Node.name).Nodup ∧
          (edges.map Edge.ends).Nodup ∧ g = ⟨nodes, edges, OrderedMap.empty⟩) ∧
        ∀ e, ofParts nodes edges = .error e ↔
          (∃ n, FirstRepeat Node.name nodes n ∧ e = .duplicateNode n.name) ∨
          ((nodes.map Node.name).Nodup ∧
            ∃ x, FirstRepeat Edge.ends edges x ∧ e = .duplicateEdge x.ends) :=
  ⟨fun _ h => h.represented, fun _ _ => ⟨fun _ => ofParts_eq_ok_iff, fun _ => ofParts_eq_error_iff⟩⟩

/-! ## A sensor, a filter and an edge to nowhere -/

/-- The edge from the sensor to the filter. -/
def sensorEdge : Edge := .between ⟨"sensor", "out", "filter", "in"⟩

/-- An edge from the sensor to a node that is not there. -/
def strayEdge : Edge := .between ⟨"sensor", "out", "ghost", "in"⟩

/-- A sensor and a filter that are joined. -/
def sensorGraph : Graph where
  nodes := [.ofType "sensor" "software" "camera::Task", .ofType "filter" "software" "blur::Task"]
  edges := [sensorEdge]
  types := OrderedMap.empty

/-- Calls on the graph: the second node of a name and the change to a version that is not there are
refused, the others are not. -/
def sensorCalls : List GraphCall :=
  [.addNode (.ofType "filter" "software" "blur::Task"), .addEdge strayEdge,
    .changeVersion "filter" "v2", .removeNode "filter"]

/-- A graph is read, and after calls of which some are refused it is represented as it should be. -/
theorem sensorGraph_represented :
    ofParts sensorGraph.nodes sensorGraph.edges = .ok sensorGraph ∧
      (sensorCalls.foldl call sensorGraph).Represented ∧
      (sensorCalls.foldl call sensorGraph).nodes.map Node.name = ["sensor"] ∧
      (sensorCalls.foldl call sensorGraph).edges = [strayEdge] := by
  have hread : ofParts sensorGraph.nodes sensorGraph.edges = .ok sensorGraph :=
    ofParts_eq_ok_iff.mpr ⟨by decide, by decide, rfl⟩
  have hreached : (sensorCalls.foldl call sensorGraph).Reached := (Reached.read hread).foldl _
  exact ⟨hread, representation_kept.1 _ hreached, by decide +kernel, by decide +kernel⟩

/-- An edge may lead to a node that is not there. It is not taken out together with a node of that
name, as there is none. -/
theorem strayEdge_stays :
    let g := [.addNode (.ofType "sensor" "software" "camera::Task"), .addEdge strayEdge].foldl call
      Graph.empty
    g.Reached ∧ strayEdge ∈ (g.removeNode "ghost").edges ∧ strayEdge.touches "ghost" = true :=
  ⟨Reached.empty.foldl _, by decide +kernel, by decide⟩

end Graph
end ModelGraph
