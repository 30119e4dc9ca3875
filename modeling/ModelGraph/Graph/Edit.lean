import ModelGraph.Graph.Basic
import ModelGraph.Tree.Merge
import ModelGraph.Tree.Path
import ModelGraph.Yaml.Embedded

/-!
# Editing nodes

Editor actions on single nodes: changing the version of the model, choosing how an input combines
its edges, and reading and writing the configuration of a port.

- `Graph.renewed`, `Graph.changeVersion`: a node of another version in the place of an old one.
- `Graph.updateAtPort`: a node changed if it has a port, which the next two are cases of.
- `Graph.setMergeMode`, `Graph.setPortConfig`: the mode of an input and the configuration of a port.
-/

namespace ModelGraph

/-! ## Versions -/

/-- A list with its first element of a kind changed. -/
def updateFirst {α : Type} (p : α → Bool) (f : α → α) : List α → List α
  | [] => []
  | x :: rest => if p x then f x :: rest else x :: updateFirst p f rest

/-- The interface settings of a port taken over from another, as far as that has them. What it does
not have stays as it was. -/
def Port.carryInterface (p old : Port) : Port :=
  { p with
    interface := old.interface.or p.interface
    exportName := old.exportName.or p.exportName }

/-- The initial value of a port taken over from another, if that has one. -/
def Port.carryInitial (p old : Port) : Port := { p with initial := old.initial.or p.initial }

/-- The settings of old ports taken over to the ports of the same names. Old ports without such a
port are dropped, and ports that are new stay as they are. -/
def carryPorts (carry : Port → Port → Port) (ports old : List Port) : List Port :=
  old.foldl (fun ports o => updateFirst (·.name == o.name) (carry · o) ports) ports

namespace Graph

/-- The type of a node in some version of its model: the versioned type if it is registered, and
otherwise the type with the name of the model. -/
def versionedType? (g : Graph) (modelName version : String) : Option NodeType :=
  (g.nodeType? (modelName ++ "::" ++ version)).or (g.nodeType? modelName)

/-- A node of a type in place of an old one: name, domain, model, position, parent and data stay,
and so do the interface settings of ports with the same names. Of these ports inputs keep their
initial values too. -/
def renewed (t : NodeType) (old : Node) (version : String) : Node :=
  let fresh := t.instantiate old.name
  { fresh with
    domain := old.domain
    modelName := old.modelName
    version := version
    position := old.position
    parentName := old.parentName
    -- initial values of outputs are not taken over
    inputs := carryPorts (fun p o => (p.carryInterface o).carryInitial o) fresh.inputs old.inputs
    outputs := carryPorts Port.carryInterface fresh.outputs old.outputs
    data := old.data.map fun data => Tree.merge Tree.emptyMap data }

/-- Puts a node of another version in the place of a node. The new node comes last, and so do the
edges that touch it, without their drawing. Edges to ports that the new version does not have dangle
from then on. -/
def changeVersion (g : Graph) (name version : String) : Except GraphError Graph :=
  match g.node? name with
  | none => .error (.unknownNode name)
  | some old =>
    match g.versionedType? old.modelName version with
    | none => .error (.unknownNodeType (old.modelName ++ "::" ++ version))
    | some t => do
      -- taken down here, because removing the node removes them
      let touching := g.edges.filter (·.touches name)
      let g ← (g.removeNode name).addNode (renewed t old version)
      (touching.map Edge.withoutLayout).foldlM addEdge g

end Graph

/-! ## Merging of inputs -/

/-- How an input of a control node combines several edges. -/
inductive MergeMode where
  | sum
  | product
  | min
  | max
  deriving DecidableEq, Repr

/-- The name of a mode. -/
def MergeMode.name : MergeMode → String
  | sum => "SUM"
  | product => "PRODUCT"
  | min => "MIN"
  | max => "MAX"

/-- The value that a mode starts from. It is neutral for sums and products, and far away from usual
values for the other two. -/
def MergeMode.bias : MergeMode → Binary64
  | sum => Binary64.ofInt 0
  | product => Binary64.ofInt 1
  | min => Binary64.ofInt 1000
  | max => Binary64.ofInt (-1000)

/-- The settings of an interface with a mode. The mode has a name and a bias there, and what else
the settings say is kept. If the settings are no map, they are replaced by one. -/
def MergeMode.settings (mode : MergeMode) (interface : Tree) : Tree :=
  (interface.set "merge" (.text mode.name)).set "bias" (.float mode.bias)

/-- The keys from the data of a node to the settings of one of its interfaces. -/
def MergeMode.path (port : String) : List String := ["configuration", "interfaces", port]

/-! ## Changes at ports

Modes and configurations are set alike: the node and one of its ports are looked up, and then the
node is changed in its place. -/

namespace Node

/-- A node with its data changed, which has no entries where there is none. -/
def withData (f : Tree → Tree) (n : Node) : Node :=
  { n with data := some (f (n.data.getD Tree.emptyMap)) }

/-- A node with data changed is the node of the same name. -/
theorem name_withData (f : Tree → Tree) (n : Node) : (n.withData f).name = n.name := rfl

end Node

/-- A port with a text for its configuration. -/
def Port.withConfig (text : String) (p : Port) : Port := { p with defaultConfig := some text }

namespace Node

/-- A node with a text for the configuration of one of its ports: of the first one on this side that
has the name, which is also the one that is found under it. -/
def withConfig (side : Direction) (port text : String) (n : Node) : Node :=
  n.withPorts (updateFirst (·.name == port) (Port.withConfig text) (n.ports side)) side

/-- A node with a port changed is the node of the same name. -/
theorem name_withConfig (side : Direction) (port text : String) (n : Node) :
    (n.withConfig side port text).name = n.name := by
  cases side <;> rfl

/-- The configuration of a port. Text that is no document counts as none. -/
def portConfig? (n : Node) (side : Direction) (port : String) : Option Tree :=
  ((n.port? side port).bind (·.defaultConfig)).bind Tree.ofDocumentText?

end Node

namespace Graph

/-- A node changed if it has a port. Both the node and the port are looked up first, so a graph of
which one is missing is refused before anything is written. -/
def updateAtPort (g : Graph) (node port : String) (side : Direction) (f : Node → Node) :
    Except GraphError Graph :=
  match g.node? node with
  | none => .error (.unknownNode node)
  | some n =>
    if (n.port? side port).isNone then .error (.unknownPort node port)
    else .ok (g.updateNode node f)

/-- Sets the mode of an input, in the settings of its interface within the data of the node.
Whatever stands in the way there is replaced by a map. -/
def setMergeMode (g : Graph) (node port : String) (mode : MergeMode) : Except GraphError Graph :=
  g.updateAtPort node port .input
    (Node.withData (·.updateAt mode.settings (MergeMode.path port)))

/-- Sets the configuration of a port, which is kept as text. Any tree can be set, though one that is
a single leaf is not read again. -/
def setPortConfig (g : Graph) (node port : String) (side : Direction) (config : Tree) :
    Except GraphError Graph :=
  g.updateAtPort node port side (Node.withConfig side port (Yaml.render config))

end Graph
end ModelGraph
