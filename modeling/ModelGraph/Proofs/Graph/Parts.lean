import ModelGraph.Proofs.Graph.Changes

/-!
# Graphs from their parts

Nodes and edges make up a graph exactly if no name and no pair of ends comes twice. If one does, the
first repetition is the reason why there is no graph, and nodes are looked at before edges.

- `FirstRepeat`: the first element of a list whose key has come before.
- `foldlM_add_eq`: elements added one after the other, up to the first repetition.
- `ofParts_eq_ok_iff`, `ofParts_eq_error_iff`: what becomes of nodes and edges.
-/

namespace ModelGraph

/-! ## Repetitions -/

variable {α β γ δ : Type} {key : α → β} {l : List α} {a b : α}

/-- The first element of a list whose key has come before. It is what a graph is refused for, so it
has to be determined by the list. -/
def FirstRepeat (key : α → β) (l : List α) (a : α) : Prop :=
  ∃ before after, l = before ++ a :: after ∧ (before.map key).Nodup ∧ key a ∈ before.map key

/-- Where all keys are distinct, no element repeats one before it. -/
private theorem not_mem_of_nodup {before between : List α} {b : α}
    (h : ((before ++ b :: between).map key).Nodup) : key b ∉ before.map key := by
  intro hmem
  rw [List.map_append, List.nodup_append] at h
  exact h.2.2 _ hmem _ List.mem_cons_self rfl

/-- Where there is a repetition the keys are not distinct. -/
theorem FirstRepeat.not_nodup (h : FirstRepeat key l a) : ¬ (l.map key).Nodup := by
  obtain ⟨before, after, rfl, -, hmem⟩ := h
  exact fun hnodup => not_mem_of_nodup hnodup hmem

/-- There is one first repetition at most: what stands in front of one has no repetition, so it
cannot contain another one. -/
theorem FirstRepeat.unique (ha : FirstRepeat key l a) (hb : FirstRepeat key l b) : a = b := by
  obtain ⟨before, after, rfl, hnodup, hmem⟩ := ha
  obtain ⟨before', after', heq, hnodup', hmem'⟩ := hb
  -- one of the two stands no further behind than the other
  rcases List.append_eq_append_iff.mp heq with ⟨between, rfl, htail⟩ | ⟨between, rfl, htail⟩
  · cases between with
    | nil =>
      cases htail
      rfl
    | cons c between =>
      -- the repetition stands among the distinct elements before the other one
      cases htail
      exact absurd hmem (not_mem_of_nodup hnodup')
  · cases between with
    | nil =>
      cases htail
      rfl
    | cons c between =>
      cases htail
      exact absurd hmem' (not_mem_of_nodup hnodup)

/-- Elements are added one after the other, where an element whose key is there already is refused.
Either all of them are added, and their keys are distinct, or the first repetition is refused. Nodes
with their names and edges with their ends are both of this kind. -/
theorem foldlM_add_eq [DecidableEq β] {add : δ → α → Except γ δ} (holding : List α → δ)
    (refuse : α → γ)
    (hadd : ∀ old a, add (holding old) a =
      if key a ∈ old.map key then .error (refuse a) else .ok (holding (old ++ [a])))
    (added : List α) : ∀ old : List α, (old.map key).Nodup →
      (((old ++ added).map key).Nodup ∧
        added.foldlM add (holding old) = .ok (holding (old ++ added))) ∨
      ∃ a, FirstRepeat key (old ++ added) a ∧
        added.foldlM add (holding old) = .error (refuse a) := by
  induction added with
  | nil =>
    intro old hold
    rw [List.append_nil]
    exact .inl ⟨hold, rfl⟩
  | cons a others ih =>
    intro old hold
    rw [List.foldlM_cons, hadd]
    by_cases hmem : key a ∈ old.map key
    · rw [if_pos hmem]
      -- the key has come before, so this is the first repetition
      exact .inr ⟨a, ⟨old, others, rfl, hold, hmem⟩, rfl⟩
    · rw [if_neg hmem]
      -- the new key is none of the old ones, so the keys so far are still distinct
      have hnodup : ((old ++ [a]).map key).Nodup := by
        rw [List.map_append, List.nodup_append]
        refine ⟨hold, by simp, fun x hx y hy hxy => ?_⟩
        rw [List.map_cons, List.map_nil, List.mem_singleton] at hy
        exact hmem (hy ▸ hxy ▸ hx)
      have hrest := ih (old ++ [a]) hnodup
      rw [List.append_assoc, List.singleton_append] at hrest
      exact hrest

namespace Graph

/-! ## Nodes and edges -/

/-- A node is added behind the others, unless its name is there already. -/
theorem addNode_eq (old : List Node) (edges : List Edge) (types : OrderedMap NodeType) (n : Node) :
    (⟨old, edges, types⟩ : Graph).addNode n =
      if n.name ∈ old.map Node.name then .error (.duplicateNode n.name)
      else .ok ⟨old ++ [n], edges, types⟩ := by
  have hiff : (⟨old, edges, types⟩ : Graph).hasNode n.name = true ↔ n.name ∈ old.map Node.name := by
    rw [hasNode_iff, List.mem_map]
  simp only [addNode, hiff]

/-- An edge is added behind the others, unless its ends are there already. -/
theorem addEdge_eq (nodes : List Node) (old : List Edge) (types : OrderedMap NodeType) (e : Edge) :
    (⟨nodes, old, types⟩ : Graph).addEdge e =
      if e.ends ∈ old.map Edge.ends then .error (.duplicateEdge e.ends)
      else .ok ⟨nodes, old ++ [e], types⟩ := by
  have hiff : (⟨nodes, old, types⟩ : Graph).hasEdge e = true ↔ e.ends ∈ old.map Edge.ends := by
    rw [hasEdge_iff, List.mem_map]
  simp only [addEdge, hiff]

/-- Nodes are all added to others, unless a name comes twice. -/
theorem foldlM_addNode (nodes : List Node) :
    ((nodes.map Node.name).Nodup ∧
      nodes.foldlM addNode empty = .ok ⟨nodes, [], OrderedMap.empty⟩) ∨
    ∃ n, FirstRepeat Node.name nodes n ∧
      nodes.foldlM addNode empty = .error (.duplicateNode n.name) :=
  foldlM_add_eq (fun old => (⟨old, [], OrderedMap.empty⟩ : Graph))
    (fun n => GraphError.duplicateNode n.name)
    (fun old n => addNode_eq old [] OrderedMap.empty n) nodes [] List.nodup_nil

/-- Edges are all added to others, unless a pair of ends comes twice. -/
theorem foldlM_addEdge (nodes : List Node) (types : OrderedMap NodeType) (edges old : List Edge)
    (hold : (old.map Edge.ends).Nodup) :
    (((old ++ edges).map Edge.ends).Nodup ∧
      edges.foldlM addEdge ⟨nodes, old, types⟩ = .ok ⟨nodes, old ++ edges, types⟩) ∨
    ∃ e, FirstRepeat Edge.ends (old ++ edges) e ∧
      edges.foldlM addEdge ⟨nodes, old, types⟩ = .error (.duplicateEdge e.ends) :=
  foldlM_add_eq (fun old => (⟨nodes, old, types⟩ : Graph))
    (fun e => GraphError.duplicateEdge e.ends)
    (fun old e => addEdge_eq nodes old types e) edges old hold

/-- What becomes of nodes and edges: a graph, or a complaint about the first repetition. Edges are
looked at only if all nodes have been added. -/
theorem ofParts_cases (nodes : List Node) (edges : List Edge) :
    ((nodes.map Node.name).Nodup ∧ (edges.map Edge.ends).Nodup ∧
      ofParts nodes edges = .ok ⟨nodes, edges, OrderedMap.empty⟩) ∨
    (∃ n, FirstRepeat Node.name nodes n ∧ ofParts nodes edges = .error (.duplicateNode n.name)) ∨
    ((nodes.map Node.name).Nodup ∧ ∃ e, FirstRepeat Edge.ends edges e ∧
      ofParts nodes edges = .error (.duplicateEdge e.ends)) := by
  unfold ofParts
  rcases foldlM_addNode nodes with ⟨hnames, hnodes⟩ | ⟨n, hrepeat, hnodes⟩
  -- edges are only added once all nodes are in
  · rw [hnodes]
    rcases foldlM_addEdge nodes OrderedMap.empty edges [] List.nodup_nil with
      ⟨hends, hedges⟩ | ⟨e, hrepeat, hedges⟩
    · exact .inl ⟨hnames, hends, hedges⟩
    · exact .inr (.inr ⟨hnames, e, hrepeat, hedges⟩)
  · rw [hnodes]
    exact .inr (.inl ⟨n, hrepeat, rfl⟩)

/-- Nodes and edges make up a graph if and only if names and ends are distinct. -/
theorem ofParts_eq_ok_iff {nodes : List Node} {edges : List Edge} {g : Graph} :
    ofParts nodes edges = .ok g ↔ (nodes.map Node.name).Nodup ∧ (edges.map Edge.ends).Nodup ∧
      g = ⟨nodes, edges, OrderedMap.empty⟩ := by
  rcases ofParts_cases nodes edges with ⟨hnames, hends, h⟩ | ⟨n, hrepeat, h⟩ |
    ⟨-, e, hrepeat, h⟩ <;> rw [h]
  · simp [hnames, hends, eq_comm]
  · simp [hrepeat.not_nodup]
  · simp [hrepeat.not_nodup]

/-- They make up none exactly if there is a repetition, and the error tells the first one. Nodes are
looked at before edges. -/
theorem ofParts_eq_error_iff {nodes : List Node} {edges : List Edge} {e : GraphError} :
    ofParts nodes edges = .error e ↔
      (∃ n, FirstRepeat Node.name nodes n ∧ e = .duplicateNode n.name) ∨
      ((nodes.map Node.name).Nodup ∧
        ∃ x, FirstRepeat Edge.ends edges x ∧ e = .duplicateEdge x.ends) := by
  rcases ofParts_cases nodes edges with ⟨hnames, hends, h⟩ | ⟨n, hn, h⟩ |
    ⟨hnames, x, hx, h⟩ <;> rw [h]
  · refine ⟨fun h => (nomatch h), ?_⟩
    rintro (⟨n, hn, -⟩ | ⟨-, x, hx, -⟩)
    · exact absurd hnames hn.not_nodup
    · exact absurd hends hx.not_nodup
  · constructor
    · intro heq
      cases heq
      exact .inl ⟨n, hn, rfl⟩
    · rintro (⟨m, hm, rfl⟩ | ⟨hnames, -⟩)
      -- there is only one first node whose name is repeated
      · rw [hn.unique hm]
      · exact absurd hnames hn.not_nodup
  · constructor
    · intro heq
      cases heq
      exact .inr ⟨hnames, x, hx, rfl⟩
    · rintro (⟨n, hn, -⟩ | ⟨-, y, hy, rfl⟩)
      · exact absurd hnames hn.not_nodup
      · rw [hx.unique hy]

end Graph
end ModelGraph
