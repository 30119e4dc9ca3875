import ModelGraph.Graph.Basic
import ModelGraph.Json.Printer
import ModelGraph.Json.Reader
import ModelGraph.Yaml.Printer
import ModelGraph.Yaml.Reader

/-!
# Graph documents

The document of a graph: its nodes and its edges with their fields by name. Optional fields that
are absent are left out. Fields that are not known are passed over when a document is read, and a
known field may come only once.

- `Graph.toTree`: the document of a graph.
- `Graph.ofYaml`, `Graph.ofJson`: the graph of a document.
-/

namespace ModelGraph

open Document

/-! ## Writing -/

/-- The document of a position. -/
def Position.toTree (p : Position) : Tree := .map ⟨[("x", .float p.x), ("y", .float p.y)]⟩

/-- The document of a port. -/
def Port.toTree (p : Port) : Tree :=
  .map ⟨[("name", .text p.name)] ++
    Tree.optionalField "interface" (fun i => .scalar (.int i)) p.interface ++
    Tree.optionalField "interfaceExportName" .text p.exportName ++
    Tree.optionalField "initValue" id p.initial ++
    Tree.optionalField "defaultConfig" .text p.defaultConfig⟩

/-- The document of a node. -/
def Node.toTree (n : Node) : Tree :=
  .map ⟨[("name", .text n.name), ("domain", .text n.domain), ("type", .text n.typeName),
      ("modelName", .text n.modelName), ("modelVersion", .text n.version),
      ("inputs", .seq (n.inputs.map Port.toTree)), ("outputs", .seq (n.outputs.map Port.toTree))] ++
    Tree.optionalField "data" id n.data ++
    Tree.optionalField "parentName" .text n.parentName ++
    Tree.optionalField "pos" Position.toTree n.position⟩

/-- The document of an edge. -/
def Edge.toTree (e : Edge) : Tree :=
  .map ⟨[("fromNode", .text e.ends.fromNode), ("fromNodeOutput", .text e.ends.fromPort),
      ("toNode", .text e.ends.toNode), ("toNodeInput", .text e.ends.toPort),
      ("weight", .float e.weight), ("smooth", .bool e.smooth)] ++
    Tree.optionalField "transport" id e.transport ++
    Tree.optionalField "type" id e.dataType ++
    Tree.optionalField "size" id e.size ++
    Tree.optionalField "vertices" id e.vertices ++
    Tree.optionalField "decoupleVertices" id e.decoupledVertices⟩

/-- The document of a graph. -/
def Graph.toTree (g : Graph) : Tree :=
  .map ⟨[("nodes", .seq (g.nodes.map Node.toTree)), ("edges", .seq (g.edges.map Edge.toTree))]⟩

/-- The document of a graph as YAML text. -/
def Graph.toYaml (g : Graph) : String := Yaml.render g.toTree

/-- The document of a graph as JSON text. -/
def Graph.toJson (g : Graph) : String := Json.render g.toTree

/-! ## Reading -/

variable {σ : Type}

/-- The fields of a position as far as they have been read. -/
structure Position.Draft where
  x : Option Binary64 := none
  y : Option Binary64 := none

/-- How a position is read. -/
def Position.reader (c : Context σ) : RecordReader σ Position.Draft Position where
  start := {}
  fields := [
    field "x" (·.x) (fun v d => { d with x := some v }) fun _ => c.float,
    field "y" (·.y) (fun v d => { d with y := some v }) fun _ => c.float]
  finish := fun d => do some { x := ← d.x, y := ← d.y }

/-- The fields of a port as far as they have been read. -/
structure Port.Draft where
  name : Option String := none
  interface : Option (Option Int64) := none
  exportName : Option (Option String) := none
  initial : Option (Option Tree) := none
  defaultConfig : Option (Option String) := none

/-- How a port is read. -/
def Port.reader (c : Context σ) : RecordReader σ Port.Draft Port where
  start := {}
  fields := [
    field "name" (·.name) (fun v d => { d with name := some v }) fun _ => c.text,
    field "interface" (·.interface) (fun v d => { d with interface := some v })
      fun _ => c.optional c.integer,
    field "interfaceExportName" (·.exportName) (fun v d => { d with exportName := some v })
      fun _ => c.optional c.text,
    field "initValue" (·.initial) (fun v d => { d with initial := some v })
      fun levels => c.optional (c.tree levels),
    field "defaultConfig" (·.defaultConfig) (fun v d => { d with defaultConfig := some v })
      fun _ => c.optional c.text]
  finish := fun d => do
    some {
      -- a port needs a name alone
      name := ← d.name
      interface := d.interface.getD none
      exportName := d.exportName.getD none
      initial := d.initial.getD none
      defaultConfig := d.defaultConfig.getD none }

/-- The fields of a node as far as they have been read. -/
structure Node.Draft where
  name : Option String := none
  domain : Option String := none
  typeName : Option String := none
  modelName : Option String := none
  version : Option String := none
  inputs : Option (List Port) := none
  outputs : Option (List Port) := none
  data : Option (Option Tree) := none
  parentName : Option (Option String) := none
  position : Option (Option Position) := none

/-- How a node is read. -/
def Node.reader (c : Context σ) : RecordReader σ Node.Draft Node where
  start := {}
  fields := [
    field "name" (·.name) (fun v d => { d with name := some v }) fun _ => c.text,
    field "domain" (·.domain) (fun v d => { d with domain := some v }) fun _ => c.text,
    field "type" (·.typeName) (fun v d => { d with typeName := some v }) fun _ => c.text,
    field "modelName" (·.modelName) (fun v d => { d with modelName := some v }) fun _ => c.text,
    field "modelVersion" (·.version) (fun v d => { d with version := some v }) fun _ => c.text,
    field "inputs" (·.inputs) (fun v d => { d with inputs := some v })
      (c.list (c.record (Port.reader c))),
    field "outputs" (·.outputs) (fun v d => { d with outputs := some v })
      (c.list (c.record (Port.reader c))),
    field "data" (·.data) (fun v d => { d with data := some v })
      fun levels => c.optional (c.tree levels),
    field "parentName" (·.parentName) (fun v d => { d with parentName := some v })
      fun _ => c.optional c.text,
    field "pos" (·.position) (fun v d => { d with position := some v })
      fun levels => c.optional (c.record (Position.reader c) levels)]
  finish := fun d => do
    some {
      -- a node needs its name and its type, and everything else has a default
      name := ← d.name
      domain := d.domain.getD ""
      typeName := ← d.typeName
      modelName := d.modelName.getD ""
      version := d.version.getD ""
      inputs := d.inputs.getD []
      outputs := d.outputs.getD []
      data := d.data.getD none
      parentName := d.parentName.getD none
      position := d.position.getD none }

/-- The fields of an edge as far as they have been read. -/
structure Edge.Draft where
  fromNode : Option String := none
  fromPort : Option String := none
  toNode : Option String := none
  toPort : Option String := none
  weight : Option Binary64 := none
  smooth : Option Bool := none
  transport : Option (Option Tree) := none
  dataType : Option (Option Tree) := none
  size : Option (Option Tree) := none
  vertices : Option (Option Tree) := none
  decoupledVertices : Option (Option Tree) := none

/-- How an edge is read. -/
def Edge.reader (c : Context σ) : RecordReader σ Edge.Draft Edge where
  start := {}
  fields := [
    field "fromNode" (·.fromNode) (fun v d => { d with fromNode := some v }) fun _ => c.text,
    field "fromNodeOutput" (·.fromPort) (fun v d => { d with fromPort := some v })
      fun _ => c.text,
    field "toNode" (·.toNode) (fun v d => { d with toNode := some v }) fun _ => c.text,
    field "toNodeInput" (·.toPort) (fun v d => { d with toPort := some v }) fun _ => c.text,
    field "weight" (·.weight) (fun v d => { d with weight := some v }) fun _ => c.float,
    field "smooth" (·.smooth) (fun v d => { d with smooth := some v }) fun _ => c.bool,
    field "transport" (·.transport) (fun v d => { d with transport := some v })
      fun levels => c.optional (c.tree levels),
    field "type" (·.dataType) (fun v d => { d with dataType := some v })
      fun levels => c.optional (c.tree levels),
    field "size" (·.size) (fun v d => { d with size := some v })
      fun levels => c.optional (c.tree levels),
    field "vertices" (·.vertices) (fun v d => { d with vertices := some v })
      fun levels => c.optional (c.tree levels),
    field "decoupleVertices" (·.decoupledVertices)
      (fun v d => { d with decoupledVertices := some v })
      fun levels => c.optional (c.tree levels)]
  finish := fun d => do
    some {
      -- an edge needs its four ends, and everything else has a default
      ends := ⟨← d.fromNode, ← d.fromPort, ← d.toNode, ← d.toPort⟩
      weight := d.weight.getD unitWeight
      smooth := d.smooth.getD false
      transport := d.transport.getD none
      dataType := d.dataType.getD none
      size := d.size.getD none
      vertices := d.vertices.getD none
      decoupledVertices := d.decoupledVertices.getD none }

/-- The parts of a graph as far as they have been read. -/
structure Graph.Draft where
  nodes : Option (List Node) := none
  edges : Option (List Edge) := none

/-- How the nodes and edges of a graph are read. -/
def Graph.reader (c : Context σ) : RecordReader σ Graph.Draft (List Node × List Edge) where
  start := {}
  fields := [
    field "nodes" (·.nodes) (fun v d => { d with nodes := some v })
      (c.list (c.record (Node.reader c))),
    field "edges" (·.edges) (fun v d => { d with edges := some v })
      (c.list (c.record (Edge.reader c)))]
  -- a document without fields is the graph without parts
  finish := fun d => some (d.nodes.getD [], d.edges.getD [])

/-- The graph of a document. It is put together node by node and edge by edge, so repeated names and
repeated edges are refused as they are elsewhere. -/
def Graph.ofDocument (c : Context σ) (fault : Fault → DocumentError) : Except GraphError Graph :=
  match c.run (c.record (Graph.reader c)) with
  | .ok (nodes, edges) => Graph.ofParts nodes edges
  | .error f => .error (.document (fault f))

/-- The graph of a YAML text. -/
def Graph.ofYaml (text : String) : Except GraphError Graph :=
  Graph.ofDocument (Yaml.context text) .yaml

/-- The graph of a JSON text. -/
def Graph.ofJson (text : String) : Except GraphError Graph :=
  Graph.ofDocument (Json.context text) .json

end ModelGraph
