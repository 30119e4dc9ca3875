import ModelGraph.Graph.Basic
import ModelGraph.Proofs.OrderedMap

/-!
# Laws of graph changes

What the operations that change a graph do to its nodes, its edges and its types, and how a series
of additions is taken back.

- `addNode_of_new`, `addEdge_of_new`: an addition under a new name, or between new ends, succeeds.
- `Grows`: a graph keeps what another one has.
- `foldl_removeEdge_added`, `foldl_removeNode_added`: removing what has been added, the last one
  first.
-/

namespace ModelGraph.Graph

/-! ## Looking -/

/-- There is a node with a name exactly if one of the nodes has it. -/
theorem hasNode_iff (g : Graph) (name : String) :
    g.hasNode name = true ↔ ∃ n ∈ g.nodes, n.name = name := by
  simp [hasNode, node?]

/-- There is no node with a name exactly if all nodes have other names. -/
theorem hasNode_eq_false_iff (g : Graph) (name : String) :
    g.hasNode name = false ↔ ∀ n ∈ g.nodes, n.name ≠ name := by
  rw [← Bool.not_eq_true, hasNode_iff]
  simp

/-- The node that is found under a name has this name. -/
theorem name_of_node? {g : Graph} {name : String} {n : Node} (h : g.node? name = some n) :
    n.name = name := by
  simpa using List.find?_some h

/-- Where names are unique, a node is the one that is found under its name. -/
theorem WellFormed.node?_eq_some_iff {g : Graph} (h : g.WellFormed) {name : String} {n : Node} :
    g.node? name = some n ↔ n ∈ g.nodes ∧ n.name = name := by
  unfold node?
  constructor
  · intro hfind
    exact ⟨List.mem_of_find?_eq_some hfind, name_of_node? hfind⟩
  · rintro ⟨hmem, rfl⟩
    exact OrderedMap.find?_key h.1 hmem

/-- Where names are unique, nodes of the same name are the same. -/
theorem WellFormed.eq_of_name {g : Graph} (h : g.WellFormed) {m n : Node} (hm : m ∈ g.nodes)
    (hn : n ∈ g.nodes) (hname : m.name = n.name) : m = n :=
  Option.some.inj
    ((h.node?_eq_some_iff.mpr ⟨hm, hname⟩).symm.trans (h.node?_eq_some_iff.mpr ⟨hn, rfl⟩))

/-- Where names are unique, they are so among the nodes of any kind. -/
theorem WellFormed.filter_names_nodup {g : Graph} (h : g.WellFormed) (p : Node → Bool) :
    ((g.nodes.filter p).map Node.name).Nodup :=
  h.1.sublist (List.filter_sublist.map _)

/-- Where names are unique, values can be listed under the names of some nodes. -/
theorem WellFormed.filter_entries_nodup {g : Graph} (h : g.WellFormed) (p : Node → Bool)
    {α : Type} (value : Node → α) :
    (((g.nodes.filter p).map fun n => (n.name, value n)).map Prod.fst).Nodup := by
  rw [List.map_map]
  exact h.filter_names_nodup p

/-- There is an edge with the ends of another one exactly if one of the edges has these ends. -/
theorem hasEdge_iff (g : Graph) (e : Edge) :
    g.hasEdge e = true ↔ ∃ f ∈ g.edges, f.ends = e.ends := by
  simp [hasEdge, Edge.sameEnds]

/-- There is no edge with some ends exactly if all edges have other ends. -/
theorem hasEdge_eq_false_iff (g : Graph) (e : Edge) :
    g.hasEdge e = false ↔ ∀ f ∈ g.edges, f.ends ≠ e.ends := by
  rw [← Bool.not_eq_true, hasEdge_iff]
  simp

/-- A type is registered exactly if one is found under its name. -/
theorem hasNodeType_iff (g : Graph) (name : String) :
    g.hasNodeType name = true ↔ ∃ t, g.nodeType? name = some t := by
  rw [hasNodeType, Option.isSome_iff_exists]

/-! ## Adding -/

/-- A node under a new name is added behind all others. -/
theorem addNode_of_new {g : Graph} {n : Node} (h : g.hasNode n.name = false) :
    g.addNode n = .ok { g with nodes := g.nodes ++ [n] } := by
  simp [addNode, h]

/-- An edge between new ends is added behind all others. Its ends need not exist. -/
theorem addEdge_of_new {g : Graph} {e : Edge} (h : g.hasEdge e = false) :
    g.addEdge e = .ok { g with edges := g.edges ++ [e] } := by
  simp [addEdge, h]

/-- Registering a type changes what is found under its own name, and there it
hides an earlier type. -/
theorem nodeType?_register (g : Graph) (t : NodeType) (name : String) :
    (g.register t).nodeType? name = if name = t.name then some t else g.nodeType? name :=
  OrderedMap.get?_insert g.types t.name name t

/-- A type that is registered stays registered when another one comes. -/
theorem hasNodeType_register {g : Graph} {name : String} (h : g.hasNodeType name = true)
    (t : NodeType) : (g.register t).hasNodeType name = true := by
  rw [hasNodeType, nodeType?_register]
  split
  · rfl
  · exact h

/-! ## Growing -/

/-- One graph has everything that another one has: its nodes and edges come first, in the same
order, and its types stay registered. Every step of an expansion makes a graph grow, so what has
been found once is found from then on. -/
structure Grows (g g' : Graph) : Prop where
  nodes : g.nodes <+: g'.nodes
  edges : g.edges <+: g'.edges
  types : ∀ name, g.hasNodeType name = true → g'.hasNodeType name = true

namespace Grows

variable {g g' g'' : Graph}

/-- A graph has everything that it has itself. -/
theorem refl (g : Graph) : g.Grows g := ⟨List.prefix_refl _, List.prefix_refl _, fun _ h => h⟩

/-- What is kept from one graph to the next is kept to the one after it. -/
theorem trans (h : g.Grows g') (h' : g'.Grows g'') : g.Grows g'' :=
  ⟨h.nodes.trans h'.nodes, h.edges.trans h'.edges, fun name hn => h'.types name (h.types name hn)⟩

/-- The node with a name stays the same. -/
theorem node? (h : g.Grows g') {name : String} {n : Node} (hn : g.node? name = some n) :
    g'.node? name = some n :=
  h.nodes.find?_eq_some hn

/-- A name that is taken stays taken. -/
theorem hasNode (h : g.Grows g') {name : String} (hn : g.hasNode name = true) :
    g'.hasNode name = true := by
  obtain ⟨n, hmem, hname⟩ := (hasNode_iff g name).mp hn
  exact (hasNode_iff g' name).mpr ⟨n, h.nodes.subset hmem, hname⟩

/-- Ends that are joined stay joined. -/
theorem hasEdge (h : g.Grows g') {e : Edge} (he : g.hasEdge e = true) : g'.hasEdge e = true := by
  obtain ⟨f, hmem, hends⟩ := (hasEdge_iff g e).mp he
  exact (hasEdge_iff g' e).mpr ⟨f, h.edges.subset hmem, hends⟩

end Grows

/-! ## Taking back -/

/-- The last element of a list is taken out if it is the only one of a kind. -/
private theorem eraseP_concat {α : Type} (p : α → Bool) {l : List α} {a : α}
    (hl : ∀ b ∈ l, ¬ p b = true) (ha : p a = true) : (l ++ [a]).eraseP p = l := by
  rw [List.eraseP_append_right _ hl]
  simp [ha]

/-- The edge that was added last is taken out again. -/
theorem removeEdge_concat (g : Graph) {edges : List Edge} {e : Edge}
    (h : ∀ f ∈ edges, f.ends ≠ e.ends) :
    ({ g with edges := edges ++ [e] } : Graph).removeEdge e = { g with edges } := by
  have herase := eraseP_concat (fun f : Edge => f.sameEnds e) (l := edges) (a := e)
    (by simpa [Edge.sameEnds] using h) (by simp [Edge.sameEnds])
  simp only [removeEdge, herase]

/-- The node that was added last is taken out again, with every edge that touches it. Edges that
were dangling before it came are among these. -/
theorem removeNode_concat (g : Graph) {nodes : List Node} {n : Node}
    (h : ∀ m ∈ nodes, m.name ≠ n.name) :
    ({ g with nodes := nodes ++ [n] } : Graph).removeNode n.name =
      { g with nodes, edges := g.edges.filter (!·.touches n.name) } := by
  have hhas : ({ g with nodes := nodes ++ [n] } : Graph).hasNode n.name = true :=
    (hasNode_iff _ _).mpr ⟨n, by simp, rfl⟩
  have herase := eraseP_concat (fun m : Node => m.name == n.name) (l := nodes) (a := n)
    (by simpa using h) (by simp)
  simp only [removeNode, hhas, if_true, herase]

/-- Elements whose keys are distinct and differ from all keys before them. A journal lists such
elements, and this is what it takes to undo them one by one. -/
structure AddsNew {α β : Type} (key : α → β) (old added : List α) : Prop where
  apart : ∀ a ∈ added, ∀ b ∈ old, key b ≠ key a
  distinct : (added.map key).Nodup

/-- Nothing has been added yet. -/
theorem AddsNew.nil {α β : Type} (key : α → β) (old : List α) : AddsNew key old [] :=
  ⟨by simp, by simp⟩

/-- One more element, whose key differs from all keys so far. -/
theorem AddsNew.concat {α β : Type} {key : α → β} {old added : List α} (h : AddsNew key old added)
    {a : α} (ha : ∀ b ∈ old ++ added, key b ≠ key a) : AddsNew key old (added ++ [a]) where
  apart := by
    intro x hx b hb
    -- the new one differs from all that was there, and the others do already
    rcases List.mem_append.mp hx with hx | hx
    · exact h.apart x hx b hb
    · rw [List.mem_singleton.mp hx]
      exact ha b (List.mem_append_left _ hb)
  distinct := by
    rw [List.map_append, List.nodup_append]
    refine ⟨h.distinct, by simp, ?_⟩
    intro x hx y hy
    obtain ⟨b, hb, rfl⟩ := List.mem_map.mp hx
    rw [List.map_cons, List.map_nil, List.mem_singleton] at hy
    exact hy ▸ ha b (List.mem_append_right _ hb)

/-- Read from the end, every element differs from those before it. -/
private theorem AddsNew.cons_reverse {α β : Type} {key : α → β} {old rest : List α} {a : α}
    (h : AddsNew key old (a :: rest)) :
    (∀ b ∈ old ++ rest.reverse, key b ≠ key a) ∧ AddsNew key old rest := by
  obtain ⟨hnot, hrest⟩ := List.nodup_cons.mp h.distinct
  refine ⟨?_, fun x hx => h.apart x (List.mem_cons_of_mem _ hx), hrest⟩
  intro b hb hkey
  -- an element before it is an old one, or one that was added and is distinct from it
  rcases List.mem_append.mp hb with hb | hb
  · exact h.apart a List.mem_cons_self b hb hkey
  · exact hnot (hkey ▸ List.mem_map_of_mem (List.mem_reverse.mp hb))

/-- The order in which elements have been added does not matter for their keys. -/
private theorem AddsNew.reverse {α β : Type} {key : α → β} {old added : List α}
    (h : AddsNew key old added) : AddsNew key old added.reverse :=
  ⟨fun a ha => h.apart a (List.mem_reverse.mp ha), by
    rw [List.map_reverse]
    exact (List.reverse_perm _).nodup_iff.mpr h.distinct⟩

-- The additions are listed with the last one first, so that the recursion of the fold takes them
-- back in the order in which they stand.
private theorem foldl_removeEdge_reverse (g : Graph) (old : List Edge) (l : List Edge) :
    AddsNew Edge.ends old l →
      l.foldl removeEdge { g with edges := old ++ l.reverse } = { g with edges := old } := by
  induction l with
  | nil => intro _; simp
  | cons e rest ih =>
    intro h
    obtain ⟨hnew, hrest⟩ := h.cons_reverse
    rw [List.foldl_cons, List.reverse_cons, ← List.append_assoc, removeEdge_concat g hnew]
    exact ih hrest

/-- Edges that have been added between new ends are all taken out again, the last one first. -/
theorem foldl_removeEdge_added (g : Graph) {old added : List Edge}
    (h : AddsNew Edge.ends old added) :
    added.reverse.foldl removeEdge { g with edges := old ++ added } = { g with edges := old } := by
  have hfold := foldl_removeEdge_reverse g old added.reverse h.reverse
  rwa [List.reverse_reverse] at hfold

/-- The edges that touch none of the nodes. -/
def edgesApart (edges : List Edge) (nodes : List Node) : List Edge :=
  edges.filter fun e => nodes.all fun n => !e.touches n.name

/-- The edges that touch no node are some of the edges, in their order. -/
theorem edgesApart_sublist (edges : List Edge) (nodes : List Node) :
    (edgesApart edges nodes).Sublist edges :=
  List.filter_sublist

/-- Nodes are taken out from the end, each with the edges that touch it. What is left are the nodes
in front and the edges that touch none of those taken out. -/
private theorem foldl_removeNode_reverse (old : List Node) (l : List Node) :
    ∀ g : Graph, AddsNew Node.name old l →
      (l.map Node.name).foldl removeNode { g with nodes := old ++ l.reverse } =
        { g with nodes := old, edges := edgesApart g.edges l } := by
  induction l with
  | nil =>
    intro g _
    have hall : edgesApart g.edges [] = g.edges := List.filter_eq_self.mpr (by simp)
    simp [hall]
  | cons n rest ih =>
    intro g h
    obtain ⟨hnew, hrest⟩ := h.cons_reverse
    rw [List.map_cons, List.foldl_cons, List.reverse_cons, ← List.append_assoc,
      removeNode_concat g hnew]
    -- every node that is taken out takes its edges with it, so the edges change on the way
    have hfold := ih { g with edges := g.edges.filter (!·.touches n.name) } hrest
    rw [hfold]
    simp [edgesApart, List.filter_filter, Bool.and_comm]

/-- Nodes that have been added under new names are all taken out again, and with them the edges that
touch them. Edges of the graph before are lost where they touch a node that had been added. -/
theorem foldl_removeNode_added (g : Graph) {old added : List Node}
    (h : AddsNew Node.name old added) :
    (added.map Node.name).reverse.foldl removeNode { g with nodes := old ++ added } =
      { g with nodes := old, edges := edgesApart g.edges added } := by
  have hfold := foldl_removeNode_reverse old added.reverse g h.reverse
  rw [List.reverse_reverse, List.map_reverse] at hfold
  rw [hfold]
  simp [edgesApart]

end ModelGraph.Graph
