import ModelGraph.Tree.Basic

/-!
# Nodes

The nodes of a component graph: their ports, the model they are instances of, and the types that
new nodes are made from.
-/

namespace ModelGraph

/-! ## Ports -/

/-- Where a node is drawn. It has no meaning for the model. -/
structure Position where
  x : Binary64
  y : Binary64
  deriving DecidableEq, Repr

/-- An input or an output of a node. `defaultConfig` is a document as text, which is not read until
someone asks for it. -/
structure Port where
  name : String
  interface : Option Int64 := none
  exportName : Option String := none
  initial : Option Tree := none
  defaultConfig : Option String := none
  deriving DecidableEq, Repr

/-- A port with a name only. -/
def Port.named (name : String) : Port := { name }

/-- The side of a node that a port is on. -/
inductive Direction where
  | input
  | output
  deriving DecidableEq, Repr

/-! ## Nodes -/

/-- A node. Its type is qualified by namespaces; its model is the component it is an instance of,
in some version; `data` holds its configuration; `parentName` names the node it belongs to. -/
structure Node where
  name : String
  domain : String := ""
  typeName : String
  modelName : String := ""
  version : String := ""
  inputs : List Port := []
  outputs : List Port := []
  data : Option Tree := none
  parentName : Option String := none
  position : Option Position := none
  deriving DecidableEq, Repr

namespace Node

/-- A node of a type that is its own model. -/
def ofType (name domain typeName : String) : Node :=
  { name, domain, typeName, modelName := typeName }

/-- The parent of a node. An empty name is no parent, so a document may have an empty text there
instead of leaving the field out. -/
def parent? (n : Node) : Option String := n.parentName.filter (· ≠ "")

/-- The ports on a side. -/
def ports (n : Node) : Direction → List Port
  | .input => n.inputs
  | .output => n.outputs

/-- The node with other ports on a side. -/
def withPorts (n : Node) (ports : List Port) : Direction → Node
  | .input => { n with inputs := ports }
  | .output => { n with outputs := ports }

/-- The first port with a name on a side. Names of ports are not checked, so there may be others
behind it. -/
def port? (n : Node) (side : Direction) (name : String) : Option Port :=
  (n.ports side).find? (·.name == name)

end Node

/-! ## Types -/

/-- The node type that stands in for a physical actuator. -/
def terminalType : String := "OUTPUT"

/-- The only input of a terminal node. -/
def terminalInput : String := "in1"

/-- The domain of control graphs. -/
def controlDomain : String := "bagel"

/-- A registered type of nodes, with the ports that nodes of this type are made with. A node keeps
its ports when its type is registered anew. -/
structure NodeType where
  name : String
  domain : String
  inputs : List String := []
  outputs : List String := []
  deriving DecidableEq, Repr

/-- The type of terminal nodes, which stand for the actuators of a robot and take in what control
computes for them. -/
def NodeType.terminal : NodeType :=
  { name := terminalType, domain := controlDomain, inputs := [terminalInput] }

/-- A new node of a type. Its ports have their names and nothing else yet. -/
def NodeType.instantiate (t : NodeType) (name : String) : Node :=
  { Node.ofType name t.domain t.name with
    inputs := t.inputs.map Port.named
    outputs := t.outputs.map Port.named }

/-! ## Comparison -/

/-- Comparison of optional values. -/
def sameOption {α : Type} (same : α → α → Bool) : Option α → Option α → Bool
  | some x, some y => same x y
  | none, none => true
  | _, _ => false

/-- Comparison of lists element by element. -/
def sameList {α : Type} (same : α → α → Bool) : List α → List α → Bool
  | [], [] => true
  | x :: xs, y :: ys => same x y && sameList same xs ys
  | _, _ => false

/-- Comparison of positions, with their numbers compared as numbers. -/
def Position.same (p q : Position) : Bool := p.x.same q.x && p.y.same q.y

/-- Comparison of ports, with numbers compared as numbers. -/
def Port.same (p q : Port) : Bool :=
  p.name == q.name && p.interface == q.interface && p.exportName == q.exportName &&
    sameOption Tree.same p.initial q.initial && p.defaultConfig == q.defaultConfig

/-- Comparison of nodes, with numbers compared as numbers: a number that is none is not the same as
itself, and both zeros are the same. -/
def Node.same (m n : Node) : Bool :=
  m.name == n.name && m.domain == n.domain && m.typeName == n.typeName &&
    m.modelName == n.modelName && m.version == n.version &&
    sameList Port.same m.inputs n.inputs && sameList Port.same m.outputs n.outputs &&
    sameOption Tree.same m.data n.data && m.parentName == n.parentName &&
    sameOption Position.same m.position n.position

end ModelGraph
