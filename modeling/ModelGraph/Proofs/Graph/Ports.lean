import ModelGraph.Proofs.Graph.Version

/-!
# Changes at ports

Setting the mode of an input and setting the configuration of a port are done alike: the node and
its port are looked up, and then the node is changed in its place. Both checks come before the
first write, so a graph that is changed in place is left as it was by a refusal.

- `node?_updateNode`, `WellFormed.nodes_updateNode`: a graph with one node changed.
- `updateAtPort_eq_ok_iff`: what a change at a port is when it succeeds.
- `PortRefused`, `updateAtPort_eq_error_iff`: why such a change is refused.
- `Graph.portCalls`, `inPlace_portCalls`: the same on a graph that is changed in place.
-/

namespace ModelGraph.Graph

variable {g g' : Graph} {node port : String} {side : Direction} {n : Node} {f : Node → Node}

/-! ## One node -/

/-- A name that has not been changed is found where it was, and its node is changed if it is the one
that is meant. -/
private theorem find?_updateNode (hf : ∀ n, (f n).name = n.name) (g : Graph) (name other : String) :
    (g.updateNode name f).node? other =
      (g.node? other).map fun n => if n.name = name then f n else n := by
  unfold node? updateNode
  rw [List.find?_map]
  have hother : (fun n : Node => n.name == other) ∘ (fun n => if n.name = name then f n else n) =
      fun n => n.name == other := by
    funext n
    by_cases h : n.name = name <;> simp [h, hf]
  rw [hother]

/-- The node that is changed is found under its name. -/
theorem node?_updateNode (hf : ∀ n, (f n).name = n.name) (g : Graph) (name : String) :
    (g.updateNode name f).node? name = (g.node? name).map f := by
  rw [find?_updateNode hf]
  exact Option.map_congr fun n hn => if_pos (name_of_node? hn)

/-- Other nodes are found as before. -/
theorem node?_updateNode_of_ne (hf : ∀ n, (f n).name = n.name) (g : Graph) {name other : String}
    (hne : other ≠ name) : (g.updateNode name f).node? other = g.node? other := by
  rw [find?_updateNode hf]
  refine (Option.map_congr fun n hn => if_neg fun heq => ?_).trans Option.map_id'
  exact hne ((name_of_node? hn).symm.trans heq)

/-- Two changes of a node are one change. -/
theorem updateNode_updateNode {f' : Node → Node} (hf : ∀ n, (f n).name = n.name) (g : Graph)
    (name : String) :
    (g.updateNode name f).updateNode name f' = g.updateNode name (f' ∘ f) := by
  unfold updateNode
  rw [List.map_map]
  congr 1
  refine List.map_congr_left fun n _ => ?_
  by_cases h : n.name = name <;> simp [h, hf]

/-- Where names are unique, only the node with a name is changed. It is shown with the nodes before
it and behind it, which stay. -/
theorem WellFormed.nodes_updateNode (h : g.WellFormed) (hn : g.node? node = some n)
    (f : Node → Node) : ∃ before after, g.nodes = before ++ n :: after ∧
      (g.updateNode node f).nodes = before ++ f n :: after := by
  obtain ⟨hmem, hname⟩ := h.node?_eq_some_iff.mp hn
  obtain ⟨before, after, hnodes⟩ := List.append_of_mem hmem
  refine ⟨before, after, hnodes, ?_⟩
  have hnames := h.1
  rw [hnodes, List.map_append, List.map_cons, List.nodup_append, List.nodup_cons] at hnames
  obtain ⟨-, ⟨hafter, -⟩, hbefore⟩ := hnames
  -- no other node has the name
  have hsame : ∀ l : List Node, (∀ m ∈ l, m.name ≠ node) →
      l.map (fun m => if m.name = node then f m else m) = l := fun l hl =>
    (List.map_congr_left fun m hm => if_neg (hl m hm)).trans (List.map_id l)
  rw [updateNode, hnodes, List.map_append, List.map_cons, if_pos hname,
    hsame before fun m hm heq => hbefore m.name (List.mem_map_of_mem hm) n.name
      List.mem_cons_self (heq.trans hname.symm),
    hsame after fun m hm heq => hafter (hname ▸ heq ▸ List.mem_map_of_mem hm)]

/-! ## Refusal -/

/-- Why a change at a port is refused: there is no such node, or it has no such
port on this side. -/
inductive PortRefused (g : Graph) (node port : String) (side : Direction) : GraphError → Prop where
  | noNode (hnode : g.node? node = none) : PortRefused g node port side (.unknownNode node)
  | noPort {n : Node} (hnode : g.node? node = some n) (hport : n.port? side port = none) :
      PortRefused g node port side (.unknownPort node port)

/-- A change at a port that is there is made. -/
theorem updateAtPort_eq_ok (hn : g.node? node = some n) (hport : n.port? side port ≠ none) :
    g.updateAtPort node port side f = .ok (g.updateNode node f) := by
  have hsome : (n.port? side port).isNone = false := Option.isNone_eq_false_iff.mpr
    (Option.isSome_iff_ne_none.mpr hport)
  simp only [updateAtPort, hn, hsome]
  rfl

/-- A change at a port is made only if the node and its port are there, and it is the change of this
node. -/
theorem updateAtPort_eq_ok_iff : g.updateAtPort node port side f = .ok g' ↔
    ∃ n, g.node? node = some n ∧ n.port? side port ≠ none ∧ g' = g.updateNode node f := by
  constructor
  · intro hok
    cases hn : g.node? node with
    | none => simp [updateAtPort, hn] at hok
    | some n =>
      -- without the node or the port the change would have been refused
      by_cases hport : n.port? side port = none
      · simp [updateAtPort, hn, hport] at hok
      · rw [updateAtPort_eq_ok hn hport] at hok
        exact ⟨n, rfl, hport, (Except.ok.inj hok).symm⟩
  · rintro ⟨n, hn, hport, rfl⟩
    exact updateAtPort_eq_ok hn hport

/-- It is refused exactly for one of the two reasons, and the error says for which. -/
theorem updateAtPort_eq_error_iff {e : GraphError} :
    g.updateAtPort node port side f = .error e ↔ PortRefused g node port side e := by
  constructor
  · intro herror
    cases hn : g.node? node with
    | none =>
      simp only [updateAtPort, hn] at herror
      cases herror
      exact .noNode hn
    | some n =>
      -- the node is there, so only its port can be missing
      by_cases hport : n.port? side port = none
      · simp only [updateAtPort, hn, hport, Option.isNone_none, if_true] at herror
        cases herror
        exact .noPort hn hport
      · rw [updateAtPort_eq_ok hn hport] at herror
        cases herror
  · intro hrefused
    cases hrefused with
    | noNode hn => simp only [updateAtPort, hn]
    | noPort hn hport => simp only [updateAtPort, hn, hport, Option.isNone_none, if_true]

/-! ## Calls in place -/

/-- The calls that change a node at one of its ports: the node and its port are looked up, and then
come the writes. All changes at ports are made in this way, with writes of their own. -/
def portCalls (node port : String) (side : Direction)
    (writes : List (Graph → Except GraphError Graph)) : List (Graph → Except GraphError Graph) :=
  (fun g => if g.hasNode node then .ok g else .error (.unknownNode node)) ::
    (fun g =>
      if ((g.node? node).bind (·.port? side port)).isSome then .ok g
      else .error (.unknownPort node port)) ::
    writes

/-- **A change at a port in place is done as a whole or not at all.** The writes are never refused
once both checks have been passed. -/
theorem inPlace_portCalls {writes : List (Graph → Except GraphError Graph)}
    (hwrites : g.inPlace writes = (none, g.updateNode node f)) :
    g.inPlace (portCalls node port side writes) =
      match g.updateAtPort node port side f with
      | .ok g' => (none, g')
      | .error e => (some e, g) := by
  unfold portCalls
  cases hn : g.node? node with
  | none =>
    -- the first check fails, and nothing has been written yet
    have herror : g.updateAtPort node port side f = .error (.unknownNode node) :=
      updateAtPort_eq_error_iff.mpr (.noNode hn)
    simp only [inPlace, hasNode, hn, herror]
    rfl
  | some n =>
    by_cases hport : n.port? side port = none
    · -- the second check fails, and nothing has been written yet
      have herror : g.updateAtPort node port side f = .error (.unknownPort node port) :=
        updateAtPort_eq_error_iff.mpr (.noPort hn hport)
      simp [inPlace, hasNode, hn, hport, herror]
    · have hsome : (n.port? side port).isSome = true := Option.isSome_iff_ne_none.mpr hport
      simp only [inPlace, hasNode, hn, Option.isSome_some, if_true, Option.bind_some, hsome,
        updateAtPort_eq_ok hn hport, hwrites]

end ModelGraph.Graph
