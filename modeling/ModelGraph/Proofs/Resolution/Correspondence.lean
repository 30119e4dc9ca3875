import Mathlib.Logic.Function.Basic
import ModelGraph.Proofs.Resolution.FlatName
import ModelGraph.Proofs.Resolution.Run

/-!
# Corresponding expansions

Two expansions of one fragment may get their definitions in different ways, and they may name their
nodes differently. As long as names that differ in the one differ in the other, both take the same
decisions at every point, and so they end in the same way.

- `Correspondence`: what may differ between two expansions, and what they need to have in common.
- `Mirrors`: the progress of the second expansion is that of the first one, with other names.
- `expandWith_agree`: corresponding expansions end in the same way.
- `expandWith_more`: more levels than needed make no difference.
-/

namespace ModelGraph

open Progress

/-! ## Ends that agree -/

/-- Two steps end in the same way, in states that are related. -/
structure Outcome.Agree (R : Progress → Progress → Prop) (o o' : Outcome) : Prop where
  ends : o'.1 = o.1
  states : R o.2 o'.2

namespace Outcome

variable {R : Progress → Progress → Prop}

/-- A step that succeeds without a test agrees with one that does the same. -/
theorem Agree.ok {p q : Progress} (h : R p q) : Agree R (.ok (), p) (.ok (), q) := ⟨rfl, h⟩

/-- Steps that agree may be followed by steps that agree wherever the first ones may have ended.
Where the first ones fail, both fail with the same error, and what follows is left out on both
sides. -/
theorem Agree.andThen {o o' : Outcome} (h : Agree R o o') {next next' : Progress → Outcome}
    (hnext : ∀ p q, R p q → Agree R (next p) (next' q)) :
    Agree R (o.andThen next) (o'.andThen next') := by
  obtain ⟨r, p⟩ := o
  obtain ⟨r', q⟩ := o'
  obtain ⟨hends, hstates⟩ := h
  cases hends
  cases r with
  | error e => exact ⟨rfl, hstates⟩
  | ok _ => exact hnext p q hstates

/-- Series of steps agree if their steps do, one by one. -/
theorem each_agree {α : Type} {step step' : α → Progress → Outcome} {l : List α}
    (hstep : ∀ a ∈ l, ∀ p q, R p q → Agree R (step a p) (step' a q)) :
    ∀ {p q : Progress}, R p q → Agree R (each step l p) (each step' l q) := by
  induction l with
  | nil => exact fun h => .ok h
  | cons a rest ih =>
    intro p q h
    exact (hstep a List.mem_cons_self p q h).andThen fun p q h =>
      ih (fun b hb => hstep b (List.mem_cons_of_mem _ hb)) h

end Outcome

/-! ## Other names -/

/-- A node under another name. -/
def Node.renamed (rename : String → String) (n : Node) : Node := { n with name := rename n.name }

/-- An edge between nodes under other names. -/
def Edge.renamed (rename : String → String) (e : Edge) : Edge :=
  { e with ends := { e.ends with fromNode := rename e.ends.fromNode,
                                 toNode := rename e.ends.toNode } }

/-- What may differ between two expansions of a fragment: how they get definitions and what they
note about them, the order in which types have been registered, the names of nodes, and the prefixes
that these are built with. The laws are what both need to have in common. They are used for a cache
that is left out, for a prefix in front of all names, for other ways to write definitions, and for
definitions that the store has not been asked for again. -/
structure Correspondence (supplier supplier' : Supplier) where
  /-- The name that a node has in the second expansion. -/
  rename : String → String
  /-- The prefixes under which both expand the same fragment. -/
  prefixes : String → String → Prop
  types : OrderedMap NodeType → OrderedMap NodeType → Prop
  supplies : Supply → Supply → Prop
  rename_injective : Function.Injective rename
  prefixed_eq : ∀ {pre pre'}, prefixes pre pre' →
    ∀ name, prefixed pre' name = rename (prefixed pre name)
  -- an empty name under an empty prefix would leave the prefix empty
  prefixes_inner : ∀ {pre pre'}, prefixes pre pre' →
    ∀ {name}, name ≠ "" → prefixes (prefixed pre name) (prefixed pre' name)
  types_get? : ∀ {m m'}, types m m' → ∀ name, m'.get? name = m.get? name
  types_insert : ∀ {m m'}, types m m' → ∀ name t, types (m.insert name t) (m'.insert name t)
  /-- Both get the same definitions. -/
  same : ∀ {s s'}, supplies s s' → ∀ id, (supplier' s' id).1 = (supplier s id).1
  supplies_next : ∀ {s s'}, supplies s s' →
    ∀ id, supplies (supplier s id).2 (supplier' s' id).2

namespace Correspondence

variable {supplier supplier' : Supplier} (c : Correspondence supplier supplier')

/-- The progress of the second expansion is that of the first one, with nodes under other names. The
journals are renamed as the graphs are, so rolling back takes the same out of both. -/
structure Mirrors (p q : Progress) : Prop where
  nodes : q.graph.nodes = p.graph.nodes.map (Node.renamed c.rename)
  edges : q.graph.edges = p.graph.edges.map (Edge.renamed c.rename)
  types : c.types p.graph.types q.graph.types
  addedNodes : q.addedNodes = p.addedNodes.map c.rename
  addedEdges : q.addedEdges = p.addedEdges.map (Edge.renamed c.rename)
  misses : q.misses = p.misses
  supply : c.supplies p.supply q.supply

/-- What differs between two expansions does not keep two steps from ending in the same way. The
lemmas below say this of each step of an expansion, with the names that the step has in either of
them. -/
abbrev Agree : Outcome → Outcome → Prop := Outcome.Agree c.Mirrors

variable {c}

namespace Mirrors

variable {p q : Progress}

/-! ### Looking -/

/-- A node is found under its other name, as it is but for the name. Renaming is injective, so no
node in front of it is found instead. -/
theorem node? (h : c.Mirrors p q) (name : String) :
    q.graph.node? (c.rename name) = (p.graph.node? name).map (Node.renamed c.rename) := by
  -- the search passes over the same nodes, as no other name becomes the one that is looked for
  have hname : ((fun n : Node => n.name == c.rename name) ∘ Node.renamed c.rename) =
      fun n => n.name == name := by
    funext n
    simp [Node.renamed, c.rename_injective.eq_iff, Bool.beq_eq_decide_eq]
  rw [Graph.node?, Graph.node?, h.nodes, List.find?_map, hname]

/-- The same names are taken in both graphs. -/
theorem hasNode (h : c.Mirrors p q) (name : String) :
    q.graph.hasNode (c.rename name) = p.graph.hasNode name := by
  rw [Graph.hasNode, Graph.hasNode, h.node?, Option.isSome_map]

/-- The same edges are there in both graphs. -/
theorem hasEdge (h : c.Mirrors p q) (e : Edge) :
    q.graph.hasEdge (e.renamed c.rename) = p.graph.hasEdge e := by
  rw [Bool.eq_iff_iff, Graph.hasEdge_iff, Graph.hasEdge_iff, h.edges]
  simp only [List.mem_map, exists_exists_and_eq_and]
  -- the ends determine each other, because no two names become the same
  refine exists_congr fun f => and_congr_right fun _ => ?_
  cases hf : f.ends
  cases he : e.ends
  simp [Edge.renamed, hf, he, c.rename_injective.eq_iff]

/-- The same types are registered in both graphs. Their names are not renamed, as types belong to no
prefix. -/
theorem nodeType? (h : c.Mirrors p q) (name : String) :
    q.graph.nodeType? name = p.graph.nodeType? name :=
  c.types_get? h.types name

/-- A type is registered in both graphs or in none. -/
theorem hasNodeType (h : c.Mirrors p q) (name : String) :
    q.graph.hasNodeType name = p.graph.hasNodeType name := by
  rw [Graph.hasNodeType, Graph.hasNodeType, h.nodeType?]

/-! ### Changing -/

/-- A node that both add under its two names. -/
theorem withNode (h : c.Mirrors p q) (n : Node) :
    c.Mirrors (p.withNode n) (q.withNode (n.renamed c.rename)) where
  nodes := by simp [Progress.withNode, h.nodes]
  edges := h.edges
  types := h.types
  addedNodes := by simp [Progress.withNode, h.addedNodes, Node.renamed]
  addedEdges := h.addedEdges
  misses := h.misses
  supply := h.supply

/-- An edge that both add between the two names of its nodes. -/
theorem withEdge (h : c.Mirrors p q) (e : Edge) :
    c.Mirrors (p.withEdge e) (q.withEdge (e.renamed c.rename)) where
  nodes := h.nodes
  edges := by simp [Progress.withEdge, h.edges]
  types := h.types
  addedNodes := h.addedNodes
  addedEdges := by simp [Progress.withEdge, h.addedEdges]
  misses := h.misses
  supply := h.supply

/-- A type that both register. -/
theorem register (h : c.Mirrors p q) (t : NodeType) : c.Mirrors (p.register t) (q.register t) where
  nodes := h.nodes
  edges := h.edges
  types := c.types_insert h.types t.name t
  addedNodes := h.addedNodes
  addedEdges := h.addedEdges
  misses := h.misses
  supply := h.supply

/-- A component that both note as missing. -/
theorem miss (h : c.Mirrors p q) : c.Mirrors p.miss q.miss where
  nodes := h.nodes
  edges := h.edges
  types := h.types
  addedNodes := h.addedNodes
  addedEdges := h.addedEdges
  misses := congrArg (· + 1) h.misses
  supply := h.supply

/-- A definition that both ask for. What they note about it may differ as the
correspondence allows. -/
theorem ask (h : c.Mirrors p q) (id : ComponentId) :
    c.Mirrors (p.ask supplier id).2 (q.ask supplier' id).2 where
  nodes := h.nodes
  edges := h.edges
  types := h.types
  addedNodes := h.addedNodes
  addedEdges := h.addedEdges
  misses := h.misses
  supply := c.supplies_next h.supply id

/-! ### Steps -/

/-- A node that is new to one expansion is new to the other. -/
theorem addNode (h : c.Mirrors p q) {n : Node} (hnew : p.graph.hasNode n.name = false) :
    c.Agree (p.addNode n) (q.addNode (n.renamed c.rename)) := by
  -- reusing a node because of its name is decided in the same way
  have hnew' : q.graph.hasNode (n.renamed c.rename).name = false := (h.hasNode n.name).trans hnew
  rw [addNode_of_new hnew, addNode_of_new hnew']
  exact .ok (h.withNode n)

/-- The terminal node of an actuator is added by both or by none, together with the type of terminal
nodes. -/
theorem addTerminal (h : c.Mirrors p q) (name : String) :
    c.Agree (p.addTerminal name) (q.addTerminal (c.rename name)) := by
  unfold Progress.addTerminal
  rw [h.hasNode, h.hasNodeType]
  cases hnode : p.graph.hasNode name with
  | true => exact .ok h
  | false =>
    cases p.graph.hasNodeType terminalType with
    | true => exact h.addNode (n := NodeType.terminal.instantiate name) hnode
    | false =>
      exact (h.register NodeType.terminal).addNode (n := NodeType.terminal.instantiate name) hnode

/-- The node of a control subgraph is added by both or by none. -/
theorem addControl (h : c.Mirrors p q) (control name : String) :
    c.Agree (p.addControl control name) (q.addControl control (c.rename name)) := by
  unfold Progress.addControl
  rw [h.hasNode, h.nodeType?]
  cases hnode : p.graph.hasNode name with
  | true => exact .ok h
  | false =>
    cases p.graph.nodeType? control with
    | none => exact .ok h
    | some t => exact h.addNode (n := t.instantiate name) hnode

/-- An output is joined to its actuator by both or by none. -/
theorem joinTerminal {pre pre' : String} (hpre : c.prefixes pre pre') (h : c.Mirrors p q)
    (node : String) (outputs : List String) (terminal : String) :
    c.Agree (Progress.joinTerminal node pre outputs terminal p)
      (Progress.joinTerminal (c.rename node) pre' outputs terminal q) := by
  -- the edge that would be added is the same one under new names, and so is the test for it
  have hedge : controlEdge (c.rename node) pre' terminal =
      (controlEdge node pre terminal).renamed c.rename := by
    simp [controlEdge, Edge.control, Edge.renamed, c.prefixed_eq hpre]
  simp only [Progress.joinTerminal, hedge, h.hasEdge]
  cases outputs.contains terminal with
  | false => exact .ok h
  | true =>
    cases hnew : p.graph.hasEdge (controlEdge node pre terminal) with
    | true => exact .ok h
    | false =>
      have hnew' := (h.hasEdge (controlEdge node pre terminal)).trans hnew
      simp only [Bool.not_false, Bool.and_self, if_true, addEdge_of_new hnew,
        addEdge_of_new hnew']
      exact .ok (h.withEdge _)

/-- So are all outputs of a control node. -/
theorem joinControl {pre pre' : String} (hpre : c.prefixes pre pre') (h : c.Mirrors p q)
    (node : String) (terminals : List String) :
    c.Agree (p.joinControl node pre terminals) (q.joinControl (c.rename node) pre' terminals) := by
  unfold Progress.joinControl
  rw [h.node?]
  cases p.graph.node? node with
  | none => exact .ok h
  | some n =>
    exact Outcome.each_agree (fun terminal _ p q h => h.joinTerminal hpre node _ terminal) h

/-- Both expansions load the type of a control subgraph, or none of them does. -/
theorem loadControl (h : c.Mirrors p q) (library : SubgraphLibrary) (control : String) :
    Option.Rel c.Mirrors (p.loadControl library control) (q.loadControl library control) := by
  unfold Progress.loadControl
  rw [h.hasNodeType]
  cases p.graph.hasNodeType control with
  | true => exact .some h
  | false =>
    cases library.load control with
    | error e => exact .none
    | ok t => exact .some (h.register t)

/-- The control subgraph of a fragment is connected by both in the same way. A subgraph that cannot
be loaded is left out by both. -/
theorem connect {pre pre' : String} (hpre : c.prefixes pre pre') (h : c.Mirrors p q)
    (library : SubgraphLibrary) (fragment : Fragment) :
    c.Agree (p.connect library fragment pre) (q.connect library fragment pre') := by
  unfold Progress.connect
  cases fragment.control with
  | none => exact .ok h
  | some control =>
    have hload := h.loadControl library control
    simp only [connectControl, c.prefixed_eq hpre]
    -- from here on only whether the subgraph has been loaded matters, which is the same on both
    -- sides
    generalize p.loadControl library control = loaded at hload
    generalize q.loadControl library control = loaded' at hload
    cases hload with
    | none => exact .ok h
    | some h => exact (h.addControl control _).andThen fun p q h => h.joinControl hpre _ _

/-- Where no names and no types differ, the graphs and the journals are the same. -/
theorem eq_of_rename_id (hrename : c.rename = id) (htypes : ∀ {m m'}, c.types m m' → m' = m)
    (h : c.Mirrors p q) :
    q.graph = p.graph ∧ q.addedNodes = p.addedNodes ∧ q.addedEdges = p.addedEdges := by
  obtain ⟨hnodes, hedges, htypes', haddedNodes, haddedEdges, -, -⟩ := h
  -- renaming by the identity renames nothing
  have hnode : Node.renamed c.rename = id := by rw [hrename]; rfl
  have hedge : Edge.renamed c.rename = id := by rw [hrename]; rfl
  rw [hnode, List.map_id] at hnodes
  rw [hedge, List.map_id] at hedges haddedEdges
  rw [hrename, List.map_id] at haddedNodes
  refine ⟨?_, haddedNodes, haddedEdges⟩
  have htypes'' := htypes htypes'
  cases hp : p.graph
  cases hq : q.graph
  simp_all

end Mirrors
end Correspondence

/-! ## Expansions -/

variable {supplier supplier' : Supplier} {c : Correspondence supplier supplier'}

/-- A node of a fragment is expanded by both in the same way, given that the fragments of
definitions are. Cycles are found by identities of components, which have no part in renaming, and
the definitions are the same, so both take the same branch. The name is not empty, since an empty
name under an empty prefix would not tell the two prefixes inside apart. -/
theorem expandNodeWith_agree
    {descend descend' : List ComponentId → Fragment → String → Progress → Outcome}
    (hdescend : ∀ path definition pre pre' p q, c.prefixes pre pre' → c.Mirrors p q →
      c.Agree (descend path (Fragment.ofDocument definition) pre p)
        (descend' path (Fragment.ofDocument definition) pre' q))
    {pre pre' : String} (hpre : c.prefixes pre pre') {x : FragmentNode} (hx : x.name ≠ "")
    (path : List ComponentId) {p q : Progress} (h : c.Mirrors p q) :
    c.Agree (expandNodeWith supplier descend path pre x p)
      (expandNodeWith supplier' descend' path pre' x q) := by
  have hsame : (q.ask supplier' (definitionId x.model)).1 =
      (p.ask supplier (definitionId x.model)).1 := c.same h.supply _
  -- the path has identities of components and no names of nodes, so the loops are the same
  simp only [expandNodeWith, c.prefixed_eq hpre, hsame]
  split
  · exact h.addTerminal _
  · split
    · split
      · exact ⟨rfl, h⟩
      · split
        · exact .ok (h.ask _).miss
        · -- the component is expanded under names that correspond again
          have hinner : c.prefixes (prefixed pre x.name) (c.rename (prefixed pre x.name)) :=
            c.prefixed_eq hpre x.name ▸ c.prefixes_inner hpre hx
          exact hdescend _ _ _ _ _ _ hinner (h.ask _)
    · exact .ok h

/-- **Corresponding expansions end in the same way.** The induction is on the levels, for all
prefixes under which both may expand a fragment. -/
theorem expandWith_agree (library : SubgraphLibrary) (levels : Nat) :
    ∀ (path : List ComponentId) (document : Tree) (pre pre' : String) (p q : Progress),
      c.prefixes pre pre' → c.Mirrors p q →
      c.Agree (expandWith supplier library levels path (Fragment.ofDocument document) pre p)
        (expandWith supplier' library levels path (Fragment.ofDocument document) pre' q) := by
  induction levels with
  | zero => exact fun _ _ _ _ _ _ _ h => ⟨rfl, h⟩
  | succ levels ih =>
    intro path document pre pre' p q hpre h
    -- the nodes first, each of which may expand fragments one level down
    have hnodes : c.Agree
        (Outcome.each (expandNodeWith supplier (expandWith supplier library levels) path pre)
          (Fragment.ofDocument document).nodes p)
        (Outcome.each (expandNodeWith supplier' (expandWith supplier' library levels) path pre')
          (Fragment.ofDocument document).nodes q) :=
      Outcome.each_agree
        (fun x hx p q h => expandNodeWith_agree ih hpre (Fragment.name_ne_empty hx) path h) h
    exact hnodes.andThen fun p q h => h.connect hpre library _

/-! ## Levels -/

/-- A step that does not run out of levels ends as it does with more of them. Where no expansion
runs out of levels at all, their number has no part in what it does. -/
def Outcome.ExtendedBy (o o' : Outcome) : Prop := o.1 ≠ .error .tooDeep → o' = o

namespace Outcome

/-- One step after another has more levels if both have. -/
theorem ExtendedBy.andThen {o o' : Outcome} (h : o.ExtendedBy o') {next next' : Progress → Outcome}
    (hnext : ∀ p, (next p).ExtendedBy (next' p)) :
    (o.andThen next).ExtendedBy (o'.andThen next') := by
  obtain ⟨_ | _, p⟩ := o
  · -- a failure is that of the first step
    intro hdeep
    rw [h hdeep]
    rfl
  · intro hdeep
    rw [h (by simp)]
    exact hnext p hdeep

/-- A series of steps has more levels if each of its steps has. -/
theorem each_extendedBy {α : Type} {step step' : α → Progress → Outcome} {l : List α}
    (hstep : ∀ a p, (step a p).ExtendedBy (step' a p)) :
    ∀ p, (each step l p).ExtendedBy (each step' l p) := by
  induction l with
  | nil => exact fun p _ => rfl
  | cons a rest ih => exact fun p => (hstep a p).andThen ih

end Outcome

/-- A node needs more levels only for the component that it refers to. Everything else about it is
decided before the level below is asked. -/
theorem expandNodeWith_extendedBy
    {descend descend' : List ComponentId → Fragment → String → Progress → Outcome}
    (hdescend : ∀ path f pre p, (descend path f pre p).ExtendedBy (descend' path f pre p))
    (path : List ComponentId) (pre : String) (x : FragmentNode) (p : Progress) :
    (expandNodeWith supplier descend path pre x p).ExtendedBy
      (expandNodeWith supplier descend' path pre x p) := by
  -- both take the same branch, and only one of the branches opens a component
  simp only [expandNodeWith]
  split
  · exact fun _ => rfl
  · split
    · split
      · exact fun _ => rfl
      · split
        · exact fun _ => rfl
        · exact hdescend _ _ _ _
    · exact fun _ => rfl

/-- **More levels make no difference** to an expansion that does not use them up. By induction on
the smaller number of levels, for every path and every progress at once. -/
theorem expandWith_more (library : SubgraphLibrary) {levels more : Nat} (hle : levels ≤ more) :
    ∀ (path : List ComponentId) (f : Fragment) (pre : String) (p : Progress),
      (expandWith supplier library levels path f pre p).ExtendedBy
        (expandWith supplier library more path f pre p) := by
  induction levels generalizing more with
  | zero => exact fun _ _ _ _ hdeep => absurd rfl hdeep
  | succ levels ih =>
    obtain ⟨more, rfl⟩ : ∃ m, more = m + 1 := ⟨more - 1, by omega⟩
    intro path f pre p
    -- inside the components there is one level less on both sides, so the hypothesis applies to
    -- each node
    have hnode : ∀ x q,
        (expandNodeWith supplier (expandWith supplier library levels) path pre x q).ExtendedBy
          (expandNodeWith supplier (expandWith supplier library more) path pre x q) :=
      expandNodeWith_extendedBy (ih (Nat.le_of_succ_le_succ hle)) path pre
    exact (Outcome.each_extendedBy hnode p).andThen fun p _ => rfl

end ModelGraph
