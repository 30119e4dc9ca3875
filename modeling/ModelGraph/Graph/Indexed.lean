import ModelGraph.Graph.Basic
import ModelGraph.Table

/-!
# Graphs with a table of positions

A graph kept together with a table that tells at which position the node with a name stands, so that
a node is found without a search. The table repeats what the list of nodes says, and every operation
has to keep it in step: a new node is entered with the last position, and where a node is taken out
all positions behind it move down by one.

Whatever is done to a graph is made of the changes of a single node, edge or type. `Change` lists
them, with their effect on a graph and on a graph with its table.

- `IndexedGraph.node?`, `IndexedGraph.hasNode`: looking up in the table.
- `IndexedGraph.addNode`, `IndexedGraph.removeNode`, `IndexedGraph.updateNode`: the operations that
  decide by the table and keep it in step.
- `Graph.apply`, `IndexedGraph.apply`: the effect of a change.
-/

namespace ModelGraph

/-- A graph with a table of the positions of its nodes. The table has no meaning of its own: whether
it agrees with the list of nodes is a property, and not part of the type. -/
structure IndexedGraph where
  graph : Graph
  positions : Table String Nat
  deriving DecidableEq, Repr

/-- What is there after a call: what the call gives, or what was there before if it is refused. -/
def unlessRefused {α : Type} (before : α) : Except GraphError α → α
  | .ok after => after
  | .error _ => before

namespace IndexedGraph

/-- The graph without nodes, edges and types, and the table without entries. -/
def empty : IndexedGraph := ⟨Graph.empty, Table.empty⟩

/-! ## Looking -/

/-- The node at the position that the table has for a name. -/
def node? (i : IndexedGraph) (name : String) : Option Node :=
  (i.positions.get? name).bind fun p => i.graph.nodes[p]?

/-- The table has a position for the name. -/
def hasNode (i : IndexedGraph) (name : String) : Bool := (i.positions.get? name).isSome

/-! ## Changing -/

/-- One more node, with a name that is new to the table. -/
def addNode (i : IndexedGraph) (n : Node) : Except GraphError IndexedGraph :=
  if i.hasNode n.name then .error (.duplicateNode n.name)
  else .ok ⟨{ i.graph with nodes := i.graph.nodes ++ [n] },
    i.positions.set n.name i.graph.nodes.length⟩

/-- A position after the node at another one has been taken out. The position of this node itself is
no longer in the table. -/
def moveDown (gap position : Nat) : Nat := if gap < position then position - 1 else position

/-- The node at the position of a name taken out together with every edge that touches it. -/
def removeNode (i : IndexedGraph) (name : String) : IndexedGraph :=
  match i.positions.get? name with
  | none => i
  | some gap =>
    ⟨{ i.graph with
        nodes := i.graph.nodes.eraseIdx gap
        edges := i.graph.edges.filter (!·.touches name) },
      -- the nodes behind the gap have moved down by one
      (i.positions.erase name).mapValues (moveDown gap)⟩

/-- The node at the position of a name changed. -/
def updateNode (i : IndexedGraph) (name : String) (f : Node → Node) : IndexedGraph :=
  match i.positions.get? name with
  | none => i
  | some p => { i with graph := { i.graph with nodes := i.graph.nodes.modify p f } }

end IndexedGraph

/-! ## Changes -/

/-- A change of a single node, edge or type. A node that is changed in its place keeps its name,
since its name is what the table knows it by. -/
inductive Change where
  | addNode (n : Node)
  | removeNode (name : String)
  | updateNode (name : String) (f : Node → Node) (keepsName : ∀ n, (f n).name = n.name)
  | addEdge (e : Edge)
  | removeEdge (e : Edge)
  | register (t : NodeType)

/-- The graph after a change. A node or an edge that is there already is refused. -/
def Graph.apply (g : Graph) : Change → Graph
  | .addNode n => unlessRefused g (g.addNode n)
  | .removeNode name => g.removeNode name
  | .updateNode name f _ => g.updateNode name f
  | .addEdge e => unlessRefused g (g.addEdge e)
  | .removeEdge e => g.removeEdge e
  | .register t => g.register t

/-- The graph and its table after a change. Edges and types have no entries in the table. -/
def IndexedGraph.apply (i : IndexedGraph) : Change → IndexedGraph
  | .addNode n => unlessRefused i (i.addNode n)
  | .removeNode name => i.removeNode name
  | .updateNode name f _ => i.updateNode name f
  | .addEdge e => { i with graph := unlessRefused i.graph (i.graph.addEdge e) }
  | .removeEdge e => { i with graph := i.graph.removeEdge e }
  | .register t => { i with graph := i.graph.register t }

end ModelGraph
