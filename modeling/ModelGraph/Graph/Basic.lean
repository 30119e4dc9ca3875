import ModelGraph.Document.Error
import ModelGraph.Graph.Edge

/-!
# Component graphs

Nodes and edges in the order of their insertion, and the registered types of nodes. Names of nodes
are unique, and so are the ends of edges. An edge may name nodes and ports that do not exist; such
an edge is dangling.

- `Graph.WellFormed`: names and ends are unique. Every operation keeps it.
- `Graph.addNode`, `Graph.removeNode`, `Graph.addEdge`, `Graph.removeEdge`: changing a graph.
- `GraphError`: what can go wrong when a graph is read or changed.
- `View`: a graph together with the kind of model it is.
-/

namespace ModelGraph

/-! ## Errors -/

/-- Why an operation on a graph fails. -/
inductive GraphError where
  | duplicateNode (name : String)
  | unknownNode (name : String)
  | unknownNodeType (name : String)
  | duplicateEdge (ends : Endpoints)
  | unknownPort (node port : String)
  | document (error : DocumentError)
  deriving Repr

/-- The text of a graph error. -/
def GraphError.message : GraphError → String
  | duplicateNode name => "Node name collision: " ++ name ++ " already exists in the graph"
  | unknownNode name => "Node not found: " ++ name
  | unknownNodeType name => "Node type not registered: " ++ name
  | duplicateEdge ends =>
    "Edge already exists: " ++ ends.fromNode ++ "." ++ ends.fromPort ++ " -> " ++ ends.toNode ++
      "." ++ ends.toPort
  | unknownPort node port => "Port not found: " ++ node ++ "." ++ port
  | document error => "Invalid graph document: " ++ error.message

/-! ## Graphs -/

/-- A component graph. The order of nodes and edges is that of their insertion, and all that is made
of a graph keeps to this order. -/
structure Graph where
  nodes : List Node
  edges : List Edge
  types : OrderedMap NodeType
  deriving DecidableEq, Repr

namespace Graph

/-! ## Looking -/

/-- The graph without nodes, edges and types. -/
def empty : Graph := ⟨[], [], OrderedMap.empty⟩

instance : Inhabited Graph := ⟨empty⟩

/-- Names of nodes and ends of edges are unique. Nothing else is asked of a graph: an edge may lead
to a node that does not exist. -/
def WellFormed (g : Graph) : Prop :=
  (g.nodes.map Node.name).Nodup ∧ (g.edges.map Edge.ends).Nodup

/-- The node with a name. -/
def node? (g : Graph) (name : String) : Option Node := g.nodes.find? (·.name == name)

/-- There is a node with the name. -/
def hasNode (g : Graph) (name : String) : Bool := (g.node? name).isSome

/-- There is an edge between the same ports. -/
def hasEdge (g : Graph) (e : Edge) : Bool := g.edges.any (·.sameEnds e)

/-- The registered type with a name. -/
def nodeType? (g : Graph) (name : String) : Option NodeType := g.types.get? name

/-- A type with the name is registered. -/
def hasNodeType (g : Graph) (name : String) : Bool := (g.nodeType? name).isSome

/-- An end of the edge is a node or a port that does not exist. Dangling edges are allowed, and
whoever uses a graph decides what to do with them. -/
def isDangling (g : Graph) (e : Edge) : Bool :=
  let source := (g.node? e.ends.fromNode).bind (·.port? .output e.ends.fromPort)
  let target := (g.node? e.ends.toNode).bind (·.port? .input e.ends.toPort)
  source.isNone || target.isNone

/-- The edges with an end that does not exist. -/
def danglingEdges (g : Graph) : List Edge := g.edges.filter g.isDangling

/-! ## Changing -/

/-- One more node, with a name that is new. It comes last. -/
def addNode (g : Graph) (n : Node) : Except GraphError Graph :=
  if g.hasNode n.name then .error (.duplicateNode n.name)
  else .ok { g with nodes := g.nodes ++ [n] }

/-- A node taken out together with every edge that touches it. Without such a node nothing is done,
so edges that dangle at the name stay. -/
def removeNode (g : Graph) (name : String) : Graph :=
  if g.hasNode name then
    { g with
      nodes := g.nodes.eraseP (·.name == name)
      edges := g.edges.filter (!·.touches name) }
  else g

/-- A node changed in its place. Where names are unique it is one node at most. -/
def updateNode (g : Graph) (name : String) (f : Node → Node) : Graph :=
  { g with nodes := g.nodes.map fun n => if n.name = name then f n else n }

/-- The data of a node replaced. -/
def setData (g : Graph) (name : String) (data : Tree) : Except GraphError Graph :=
  if g.hasNode name then .ok (g.updateNode name fun n => { n with data := some data })
  else .error (.unknownNode name)

/-- One more edge, between ports that it is the first to join. -/
def addEdge (g : Graph) (e : Edge) : Except GraphError Graph :=
  -- the ends are not looked up: an edge may dangle
  if g.hasEdge e then .error (.duplicateEdge e.ends) else .ok { g with edges := g.edges ++ [e] }

/-- The edge between the same ports taken out. -/
def removeEdge (g : Graph) (e : Edge) : Graph :=
  { g with edges := g.edges.eraseP (·.sameEnds e) }

/-- The edge of the graph between the same ports. -/
def edge? (g : Graph) (e : Edge) : Option Edge := g.edges.find? (·.sameEnds e)

/-- A type of nodes registered, in place of one with the same name. Nodes that have been made from
the old one stay as they are. -/
def register (g : Graph) (t : NodeType) : Graph := { g with types := g.types.insert t.name t }

/-- A graph of nodes and edges, whose names and ends must be unique. Nodes come first, so a repeated
name is told before a repeated edge. -/
def ofParts (nodes : List Node) (edges : List Edge) : Except GraphError Graph := do
  let g ← nodes.foldlM addNode empty
  edges.foldlM addEdge g

end Graph

/-! ## Kinds of graphs -/

/-- The kind of model that a graph is. -/
inductive Kind where
  | software
  | control
  | mechanics
  deriving DecidableEq, Repr

/-- The name of a kind. -/
def Kind.name : Kind → String
  | software => "software"
  | control => "control"
  | mechanics => "mechanics"

/-- A graph that is being edited, with its kind. The kind decides what can be done with the graph:
software graphs are compiled, and components are expanded into control graphs. -/
structure View where
  kind : Kind
  graph : Graph
  deriving DecidableEq, Repr

end ModelGraph
