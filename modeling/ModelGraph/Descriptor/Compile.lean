import ModelGraph.Descriptor.Basic
import ModelGraph.Descriptor.Progress
import ModelGraph.Descriptor.Task
import ModelGraph.Descriptor.Validate

/-!
# Compilation

The deployment descriptor of a software graph.

* Every deployment node gives a deployment of its name.
* A task with a parent goes to the deployment of its parent, and a task without one gets a
  deployment of its own.
* A deployment with a single task runs under the role of the task. One with several tasks runs
  under its own process name, and lists every task under the name of the task.
* An edge between two tasks becomes a connection; other edges are left out.
* Where a task of the base type exists, a second descriptor is made for the first stage of the
  startup.

The stages of the work are `Graph.roles`, `Graph.explicitDeployments`, `Graph.placeNodes`,
`consolidate` and `Graph.connections`.
-/

namespace ModelGraph

/-! ## Deployments -/

/-- The deployment of a deployment node, before it has any tasks. What the node does not say has a
default, and the process has the name of the node. -/
def CompileOptions.explicitDeployment (o : CompileOptions) (n : Node) : Deployment :=
  let overrides := deploymentOverrides n.data
  { deployer := overrides.deployer.getD o.defaultDeployer
    processName := overrides.processName.getD n.name
    hostId := overrides.hostId.getD o.defaultHost }

/-- The deployments of all deployment nodes. -/
def Graph.explicitDeployments (g : Graph) (o : CompileOptions) : OrderedMap Deployment :=
  OrderedMap.ofList ((g.nodes.filter o.isDeployment).map fun n => (n.name, o.explicitDeployment n))

/-- The deployment of a task without a parent. It holds this task alone and runs under the role of
the task. -/
def CompileOptions.ownDeployment (o : CompileOptions) (task role : String) : Deployment :=
  { deployer := o.defaultDeployer
    processName := role
    hostId := o.defaultHost
    taskList := OrderedMap.empty.insert task role }

/-- One more task in the deployment of a deployment node, whose process name is used as soon as
there are several tasks. A single task gives the process its role, which is taken back with the
second task. -/
def Deployment.addTask (d : Deployment) (processName task role : String) : Deployment :=
  -- the tasks are counted with the new one among them
  let d := { d with taskList := d.taskList.insert task role }
  { d with processName := if d.isMultiTask then processName else role }

/-! ## Tasks -/

/-- The type that a task is compiled to: its model, or its type if it has no model. -/
def Node.compiledType (n : Node) : String :=
  if n.modelName.isEmpty then n.typeName else n.modelName

/-- The entry of a task. -/
def Node.taskEntry (n : Node) : TaskEntry :=
  { config := taskConfig n.data, typeName := n.compiledType }

/-- A task put into its deployment. Validation has made sure that its parent is a deployment, so the
error does not come up for a valid graph. -/
def Descriptor.placeTask (d : Descriptor) (o : CompileOptions) (explicit : OrderedMap Deployment)
    (n : Node) (role : String) : Except CompileError Descriptor :=
  let tasks := d.tasks.insert n.name n.taskEntry
  match n.parent? with
  | some parent =>
    match explicit.get? parent with
    | none => .error (.danglingParent n.name parent)
    | some settings =>
      -- the node of the deployment may come after its tasks, and the deployment takes the
      -- place of whichever comes first
      let deployments := (d.deployments.insertIfNew parent settings).modify parent
        (·.addTask settings.processName n.name role)
      .ok { d with tasks, deployments }
  | none =>
    let deployments := d.deployments.insert (implicitDeployment n.name)
      (o.ownDeployment n.name role)
    .ok { d with tasks, deployments }

/-- A node put into the descriptor, if it is a deployment or a task. -/
def Descriptor.placeNode (o : CompileOptions) (explicit : OrderedMap Deployment)
    (roles : OrderedMap String) (d : Descriptor) (n : Node) : Except CompileError Descriptor :=
  match explicit.get? n.name with
  -- made by one of its tasks already, if a task comes before it
  | some settings => .ok { d with deployments := d.deployments.insertIfNew n.name settings }
  | none =>
    if o.isTask n then
      match roles.get? n.name with
      | some role => d.placeTask o explicit n role
      | none => .ok d
    else .ok d

/-- All nodes put into a descriptor in their order. -/
def Graph.placeNodes (g : Graph) (o : CompileOptions) (explicit : OrderedMap Deployment)
    (roles : OrderedMap String) : Except CompileError Descriptor :=
  g.nodes.foldlM (Descriptor.placeNode o explicit roles) Descriptor.empty

/-! ## Consolidation -/

/-- A deployment with several tasks lists each under the name of the task, and runs under its own
process name. This comes after all tasks have been placed, since it takes until then to know how
many there are. -/
def Deployment.consolidate (explicit : OrderedMap Deployment) (name : String) (d : Deployment) :
    Deployment :=
  if d.isMultiTask then
    { d with
      taskList := d.taskList.mapValues fun task _ => task
      processName := ((explicit.get? name).map Deployment.processName).getD d.processName }
  else d

/-- The warning about a deployment without tasks. -/
def Deployment.warning? : String × Deployment → Option String
  | (name, d) =>
      if d.taskList.isEmpty then some ("deployment " ++ name ++ " has no tasks") else none

/-! ## Connections -/

/-- The edge joins two tasks. Edges at deployments, at nodes of other domains and at missing nodes
do not. -/
def Descriptor.joinsTasks (d : Descriptor) (e : Edge) : Bool :=
  d.tasks.contains e.ends.fromNode && d.tasks.contains e.ends.toNode

/-- The connection of an edge. -/
def Edge.connection (e : Edge) : Connection :=
  { ends := e.ends, transport := e.transport, dataType := e.dataType, size := e.size }

/-! ## The whole -/

/-- A compiled graph: its descriptor, the descriptor of the first stage if there is one, and what
there is to say about them. -/
structure Compiled where
  descriptor : Descriptor
  pre : Option Descriptor
  stats : CompileStats
  warnings : List String
  deriving Repr

/-- The descriptor of a graph, all of whose nodes have been placed, with the statistics and the
warnings that go with it. -/
def Graph.finish (g : Graph) (o : CompileOptions) (explicit : OrderedMap Deployment)
    (placed : Descriptor) : Compiled :=
  let connections := (g.edges.filter placed.joinsTasks).map Edge.connection
  let descriptor : Descriptor :=
    { deployments := placed.deployments.mapValues (Deployment.consolidate explicit)
      tasks := placed.tasks
      connections := if connections.isEmpty then none else some connections }
  let baseTasks := descriptor.tasks.values.countP (·.typeName == o.baseTaskType)
  { descriptor
    pre := if baseTasks > 0 then some (descriptor.staged o.baseTaskType o.preOperationalState)
      else none
    stats :=
      { inputNodes := g.nodes.length
        inputEdges := g.edges.length
        tasks := descriptor.tasks.size
        deployments := descriptor.deployments.size
        multiTaskDeployments := descriptor.deployments.values.countP Deployment.isMultiTask
        connections := connections.length
        droppedEdges := g.edges.countP fun e => !placed.joinsTasks e
        baseTasks }
    warnings := descriptor.deployments.toList.filterMap Deployment.warning? }

/-- Compiles a graph. Whatever is wrong with it is found by the first stage, and nothing is done
before that. -/
def Graph.compile (g : Graph) (o : CompileOptions) : Except CompileError Compiled := do
  let roles ← g.roles o
  -- the graph is valid from here on, and deployments are known by name before any node
  -- is placed
  let explicit := g.explicitDeployments o
  let placed ← g.placeNodes o explicit roles
  .ok (g.finish o explicit placed)

/-- Compiles the graph of a view, which must be a software graph. -/
def View.compile (v : View) (o : CompileOptions) : Except CompileError Compiled :=
  if v.kind = .software then v.graph.compile o else .error (.wrongKind .software v.kind)

end ModelGraph
