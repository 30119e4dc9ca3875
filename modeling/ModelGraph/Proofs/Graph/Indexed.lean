import ModelGraph.Graph.Indexed
import ModelGraph.Proofs.Graph.Changes

/-!
# Tables of positions

A table of positions is exact if it has exactly the names of the nodes, each with the position at
which the node stands. Then it finds the node that a search would find. Every change keeps a table
exact, and does to the graph what it does to a graph without a table.

- `IndexedGraph.Exact`: the table says what the list of nodes says.
- `Exact.node?_eq`, `Exact.hasNode_eq`: looking up in an exact table.
- `Exact.apply`: what a change does to a graph with an exact table.
- `Exact.foldl`: what a series of changes does.
-/

namespace ModelGraph.IndexedGraph

/-- The table has the names of the nodes and no others, each with the position of its node. It
follows that names are unique, as the table has one position for each. -/
def Exact (i : IndexedGraph) : Prop :=
  ∀ name p, i.positions.get? name = some p ↔ ∃ n, i.graph.nodes[p]? = some n ∧ n.name = name

/-- A graph without nodes has an empty table. -/
theorem exact_empty : empty.Exact := by
  intro name p
  simp [empty, Graph.empty]

namespace Exact

variable {i : IndexedGraph} {name : String} {n : Node} {p : Nat}

/-! ## Looking -/

/-- A node that stands at a position is found there under its name. -/
theorem get?_of_node (h : i.Exact) (hn : i.graph.nodes[p]? = some n) :
    i.positions.get? n.name = some p :=
  (h n.name p).mpr ⟨n, hn, rfl⟩

/-- The node at the position of a name has the name. -/
theorem name_of_get? (h : i.Exact) (hget : i.positions.get? name = some p)
    (hn : i.graph.nodes[p]? = some n) : n.name = name := by
  obtain ⟨m, hm, hname⟩ := (h name p).mp hget
  rw [hn] at hm
  cases hm
  exact hname

/-- Two nodes cannot have the same name, since the table has one position for it. -/
theorem names_nodup (h : i.Exact) : (i.graph.nodes.map Node.name).Nodup := by
  refine List.pairwise_iff_getElem.mpr fun p q hp hq hpq heq => ?_
  rw [List.length_map] at hp hq
  simp only [List.getElem_map] at heq
  have hfirst := h.get?_of_node (List.getElem?_eq_getElem hp)
  have hsecond := h.get?_of_node (List.getElem?_eq_getElem hq)
  rw [heq, hsecond] at hfirst
  exact Nat.ne_of_lt hpq (Option.some.inj hfirst).symm

/-- A name that the table does not have is the name of no node. -/
theorem get?_eq_none_iff (h : i.Exact) :
    i.positions.get? name = none ↔ ∀ n ∈ i.graph.nodes, n.name ≠ name := by
  constructor
  · rintro hnone n hn rfl
    -- a node with the name has a position, and an exact table knows it
    obtain ⟨p, hp⟩ := List.getElem?_of_mem hn
    rw [h.get?_of_node hp] at hnone
    cases hnone
  · intro hnot
    rw [Option.eq_none_iff_forall_ne_some]
    intro p hp
    obtain ⟨n, hn, hname⟩ := (h name p).mp hp
    exact hnot n (List.mem_of_getElem? hn) hname

/-- The table finds the node that a search for the name finds. -/
theorem node?_eq (h : i.Exact) (name : String) : i.node? name = i.graph.node? name := by
  unfold node? Graph.node?
  cases hget : i.positions.get? name with
  | none =>
    have hnot := h.get?_eq_none_iff.mp hget
    exact (List.find?_eq_none.mpr (by simpa using hnot)).symm
  | some p =>
    obtain ⟨n, hn, rfl⟩ := (h name p).mp hget
    have hfind := OrderedMap.find?_key h.names_nodup (List.mem_of_getElem? hn)
    rw [hfind]
    exact hn

/-- The table has the names that a search would find. -/
theorem hasNode_eq (h : i.Exact) (name : String) : i.hasNode name = i.graph.hasNode name := by
  unfold hasNode
  cases hget : i.positions.get? name with
  | none =>
    exact ((Graph.hasNode_eq_false_iff _ _).mpr (h.get?_eq_none_iff.mp hget)).symm
  | some p =>
    obtain ⟨n, hn, hname⟩ := (h name p).mp hget
    exact ((Graph.hasNode_iff _ _).mpr ⟨n, List.mem_of_getElem? hn, hname⟩).symm

/-- A name has one position only. -/
theorem position_unique {q : Nat} (h : i.Exact) (hget : i.positions.get? name = some p)
    (hn : i.graph.nodes[q]? = some n) (hname : n.name = name) : q = p := by
  have hother := h.get?_of_node hn
  rw [hname, hget] at hother
  exact (Option.some.inj hother).symm

/-- The position of a name is that of the first node with the name. -/
theorem findIdx?_eq (h : i.Exact) (hget : i.positions.get? name = some p) :
    i.graph.nodes.findIdx? (·.name == name) = some p := by
  obtain ⟨n, hn, rfl⟩ := (h name p).mp hget
  obtain ⟨hp, rfl⟩ := List.getElem?_eq_some_iff.mp hn
  rw [List.findIdx?_eq_some_iff_getElem]
  refine ⟨hp, by simp, fun q hq hname => Nat.ne_of_lt hq ?_⟩
  exact h.position_unique hget (List.getElem?_eq_getElem (Nat.lt_trans hq hp)) (beq_iff_eq.mp hname)

/-! ## Nodes -/

/-- Entering a new node with the next position keeps the table exact. The node stands last, so no
other position changes. -/
theorem concat (h : i.Exact) (hnew : i.positions.get? n.name = none) :
    Exact ⟨{ i.graph with nodes := i.graph.nodes ++ [n] },
      i.positions.set n.name i.graph.nodes.length⟩ := by
  intro name p
  simp only [Table.get?_set]
  by_cases hname : name = n.name
  · -- no old node has the name, so only the last position is left
    subst hname
    rw [if_pos rfl]
    constructor
    · intro hp
      cases hp
      exact ⟨n, by simp, rfl⟩
    · rintro ⟨m, hm, hname⟩
      rw [List.getElem?_append] at hm
      split at hm
      · exact absurd hname (h.get?_eq_none_iff.mp hnew m (List.mem_of_getElem? hm))
      · rename_i hp
        obtain ⟨hlt, -⟩ := List.getElem?_eq_some_iff.mp hm
        simp only [List.length_singleton] at hlt
        congr 1
        omega
  · rw [if_neg hname, h name p]
    -- under any other name the old nodes are found where they were
    constructor
    · rintro ⟨m, hm, rfl⟩
      have hp : p < i.graph.nodes.length := (List.getElem?_eq_some_iff.mp hm).1
      exact ⟨m, by rw [List.getElem?_append_left hp]; exact hm, rfl⟩
    · rintro ⟨m, hm, rfl⟩
      rw [List.getElem?_append] at hm
      split at hm
      · exact ⟨m, hm, rfl⟩
      · rw [List.getElem?_singleton] at hm
        split at hm
        · cases hm
          exact absurd rfl hname
        · cases hm

/-- Where the node at a position is taken out, the positions behind it move down. Those in front of
it stay, and the name of the node has none any more. -/
theorem eraseIdx (h : i.Exact) {gap : Nat} (hgap : i.positions.get? name = some gap)
    (edges : List Edge) :
    Exact ⟨{ i.graph with nodes := i.graph.nodes.eraseIdx gap, edges },
      (i.positions.erase name).mapValues (moveDown gap)⟩ := by
  -- positions before the gap stay, and those behind it go down by one
  intro other p
  simp only [Table.get?_mapValues, Table.get?_erase, List.getElem?_eraseIdx]
  by_cases hother : other = name
  · -- the only position of the name has been taken out
    subst hother
    simp only [if_pos, Option.map_none, reduceCtorEq, false_iff]
    rintro ⟨n, hn, rfl⟩
    split at hn
    · have hp := h.position_unique hgap hn rfl
      omega
    · have hp := h.position_unique hgap hn rfl
      omega
  · rw [if_neg hother, Option.map_eq_some_iff]
    constructor
    · -- a position behind the gap has moved down, and any other is what it was
      rintro ⟨q, hq, rfl⟩
      obtain ⟨n, hn, rfl⟩ := (h other q).mp hq
      have hne : q ≠ gap := by
        rintro rfl
        exact hother (h.name_of_get? hgap hn)
      refine ⟨n, ?_, rfl⟩
      unfold moveDown
      by_cases hbehind : gap < q
      · rw [if_pos hbehind, if_neg (by omega), Nat.sub_add_cancel (by omega)]
        exact hn
      · rw [if_neg hbehind, if_pos (by omega)]
        exact hn
    · -- a node behind the gap was one position further on
      rintro ⟨n, hn, rfl⟩
      split at hn
      · refine ⟨p, h.get?_of_node hn, ?_⟩
        rw [moveDown, if_neg (by omega)]
      · refine ⟨p + 1, h.get?_of_node hn, ?_⟩
        rw [moveDown, if_pos (by omega), Nat.add_sub_cancel]

/-- Changing a node without its name keeps the table exact. -/
theorem modify (h : i.Exact) (p : Nat) {f : Node → Node} (hf : ∀ n, (f n).name = n.name) :
    Exact { i with graph := { i.graph with nodes := i.graph.nodes.modify p f } } := by
  intro name q
  rw [h name q]
  simp only [List.getElem?_modify]
  constructor
  · rintro ⟨n, hn, rfl⟩
    rw [hn]
    -- the names stay, so what is said about positions stays true
    by_cases hpq : p = q
    · exact ⟨f n, by simp [hpq], hf n⟩
    · exact ⟨n, by simp [hpq], rfl⟩
  · rintro ⟨n, hn, rfl⟩
    obtain ⟨m, hm, rfl⟩ := Option.map_eq_some_iff.mp hn
    refine ⟨m, hm, ?_⟩
    split
    · exact (hf m).symm
    · rfl

/-- The node at the position of a name is the one that a search for the name changes. -/
theorem modify_eq (h : i.Exact) (hget : i.positions.get? name = some p) (f : Node → Node) :
    i.graph.nodes.modify p f = i.graph.nodes.map fun n => if n.name = name then f n else n := by
  refine List.ext_getElem? fun q => ?_
  rw [List.getElem?_modify, List.getElem?_map]
  cases hq : i.graph.nodes[q]? with
  | none => rfl
  | some n =>
    -- among distinct names the position of the node and its name say the same
    have hiff : p = q ↔ n.name = name := by
      constructor
      · rintro rfl
        exact h.name_of_get? hget hq
      · exact fun hname => (h.position_unique hget hq hname).symm
    simp [hiff]

/-! ## Changes -/

/-- Adding a node keeps the table exact, also where the node is refused. -/
theorem addNode (h : i.Exact) (n : Node) :
    (unlessRefused i (i.addNode n)).Exact ∧
      (unlessRefused i (i.addNode n)).graph = unlessRefused i.graph (i.graph.addNode n) := by
  unfold IndexedGraph.addNode Graph.addNode
  rw [h.hasNode_eq]
  by_cases hhas : i.graph.hasNode n.name = true
  · rw [if_pos hhas, if_pos hhas]
    exact ⟨h, rfl⟩
  · rw [if_neg hhas, if_neg hhas]
    -- the name is new to the graph, so it is new to the table
    refine ⟨h.concat ?_, rfl⟩
    rw [h.get?_eq_none_iff]
    exact (Graph.hasNode_eq_false_iff _ _).mp (by simpa using hhas)

/-- So does taking a node out, which moves all positions behind it. -/
theorem removeNode (h : i.Exact) (name : String) :
    (i.removeNode name).Exact ∧ (i.removeNode name).graph = i.graph.removeNode name := by
  unfold IndexedGraph.removeNode Graph.removeNode
  rw [← h.hasNode_eq, hasNode]
  -- a name that the table does not have is that of no node, and nothing is taken out
  cases hget : i.positions.get? name with
  | none => exact ⟨h, rfl⟩
  | some gap =>
    refine ⟨h.eraseIdx hget _, ?_⟩
    simp only [Option.isSome_some, if_true, List.eraseP_eq_eraseIdx, h.findIdx?_eq hget]

/-- So does changing a node without its name. -/
theorem updateNode (h : i.Exact) (name : String) {f : Node → Node}
    (hf : ∀ n, (f n).name = n.name) :
    (i.updateNode name f).Exact ∧ (i.updateNode name f).graph = i.graph.updateNode name f := by
  unfold IndexedGraph.updateNode Graph.updateNode
  cases hget : i.positions.get? name with
  | none =>
    refine ⟨h, ?_⟩
    -- no node has the name, so a search changes nothing
    have hsame : i.graph.nodes.map (fun n => if n.name = name then f n else n) = i.graph.nodes := by
      refine (List.map_congr_left fun n hn => ?_).trans (List.map_id _)
      exact if_neg (h.get?_eq_none_iff.mp hget n hn)
    rw [hsame]
  | some p =>
    refine ⟨h.modify p hf, ?_⟩
    rw [← h.modify_eq hget f]

/-- A change keeps the table exact, and does to the graph what it does without the table. -/
theorem apply (h : i.Exact) (c : Change) :
    (i.apply c).Exact ∧ (i.apply c).graph = i.graph.apply c := by
  cases c with
  | addNode n => exact h.addNode n
  | removeNode name => exact h.removeNode name
  | updateNode name f hf => exact h.updateNode name hf
  | addEdge e =>
    -- an edge is refused or added, and the nodes stay the same in both cases
    refine ⟨?_, rfl⟩
    simp only [IndexedGraph.apply, Graph.addEdge]
    split <;> exact h
  | removeEdge e => exact ⟨h, rfl⟩
  | register t => exact ⟨h, rfl⟩

/-- What holds of a single change holds of a series of changes. -/
theorem foldl (cs : List Change) :
    ∀ {i : IndexedGraph}, i.Exact → (cs.foldl IndexedGraph.apply i).Exact ∧
      (cs.foldl IndexedGraph.apply i).graph = cs.foldl Graph.apply i.graph := by
  induction cs with
  | nil => intro i h; exact ⟨h, rfl⟩
  | cons c rest ih =>
    intro i h
    obtain ⟨hexact, hgraph⟩ := h.apply c
    have hrest := ih hexact
    rw [hgraph] at hrest
    exact hrest

end Exact
end ModelGraph.IndexedGraph
