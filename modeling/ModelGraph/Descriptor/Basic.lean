import ModelGraph.Graph.Edge
import ModelGraph.Tree.Path
import ModelGraph.Yaml.Printer

/-!
# Deployment descriptors

What has to be started to run a software graph: deployments, the tasks they host with their
configuration, and the connections between the tasks. The keys of every section of the document
come in a fixed order.

- `Descriptor.toTree`: the document of a descriptor.
- `Descriptor.staged`: the descriptor of the first stage of a staged startup.
-/

namespace ModelGraph

/-! ## Parts -/

/-- A process on a host, with the tasks it holds. Each task is listed under its name in the
process. -/
structure Deployment where
  deployer : String
  processName : String
  hostId : String
  taskList : OrderedMap String := OrderedMap.empty
  deriving DecidableEq, Repr

/-- A task with its configuration. `state` is the state it starts in, if it is not its own. In the
document both become keys of the configuration. -/
structure TaskEntry where
  config : OrderedMap Tree
  typeName : String
  state : Option String := none
  deriving DecidableEq, Repr

/-- A connection from a port of a task to a port of a task. -/
structure Connection where
  ends : Endpoints
  transport : Option Tree := none
  dataType : Option Tree := none
  size : Option Tree := none
  deriving DecidableEq, Repr

/-- A deployment descriptor. Without `connections` the document has no such section, which is not
the same as a section without entries. -/
structure Descriptor where
  deployments : OrderedMap Deployment
  tasks : OrderedMap TaskEntry
  connections : Option (List Connection)
  deriving DecidableEq, Repr

/-! ## Documents -/

/-- A deployment that holds several tasks. -/
def Deployment.isMultiTask (d : Deployment) : Bool := d.taskList.size > 1

/-- The document of a deployment. A list without tasks is left out. -/
def Deployment.toTree (d : Deployment) : Tree :=
  .map ⟨[("deployer", .text d.deployer), ("process_name", .text d.processName),
      ("hostID", .text d.hostId)] ++
    (if d.taskList.isEmpty then []
      else [("taskList", .map (d.taskList.mapValues fun _ role => .text role))])⟩

/-- The document of a task: its configuration, with its type and its state set in it. -/
def TaskEntry.toTree (t : TaskEntry) : Tree :=
  -- the type and the state win over keys of the configuration with the same names, and take
  -- their places
  let typed := t.config.insert "type" (.text t.typeName)
  .map (match t.state with
    | some state => typed.insert "state" (.text state)
    | none => typed)

/-- The document of one end of a connection. -/
def endpointTree (task port : String) : Tree :=
  .map ⟨[("task_id", .text task), ("port_name", .text port)]⟩

/-- The document of a connection. -/
def Connection.toTree (c : Connection) : Tree :=
  .map ⟨[("from", endpointTree c.ends.fromNode c.ends.fromPort),
      ("to", endpointTree c.ends.toNode c.ends.toPort)] ++
    Tree.optionalField "transport" id c.transport ++
    Tree.optionalField "type" id c.dataType ++
    Tree.optionalField "size" id c.size⟩

/-- Documents under their ordinal numbers, which are counted on from `first`. Connections have no
names of their own, and the sections of a descriptor are maps. -/
def numbered (first : Nat) : List Tree → List (String × Tree)
  | [] => []
  | t :: rest => (String.ofList (Text.decimal first), t) :: numbered (first + 1) rest

namespace Descriptor

/-- The descriptor without deployments and tasks. -/
def empty : Descriptor := ⟨OrderedMap.empty, OrderedMap.empty, none⟩

/-- The document of a descriptor. -/
def toTree (d : Descriptor) : Tree :=
  .map ⟨[("deployments", .map (d.deployments.mapValues fun _ x => x.toTree)),
      ("tasks", .map (d.tasks.mapValues fun _ x => x.toTree))] ++
    (match d.connections with
      | some connections => [("connections", .map ⟨numbered 0 (connections.map Connection.toTree)⟩)]
      | none => [])⟩

/-- The document of a descriptor as YAML text. -/
def toYaml (d : Descriptor) : String := Yaml.render d.toTree

/-- The descriptor of the first stage: every task that is not of the base type starts in a given
state, and nothing is connected. Deployments are the same in both stages. -/
def staged (d : Descriptor) (baseType state : String) : Descriptor :=
  { d with
    tasks := d.tasks.mapValues fun _ t =>
      if t.typeName = baseType then t else { t with state := some state }
    connections := none }

/-- The text of the descriptor that shuts everything down, for which nothing is to be run. It is the
same for every graph. -/
def shutdownText : String := "deployments:\n\ntasks:\n\nconnections:\n\n"

end Descriptor
end ModelGraph
