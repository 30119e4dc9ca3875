import ModelGraph.Graph.Basic
import ModelGraph.Text.LowerCase
import ModelGraph.Text.Basic

/-!
# Valid graphs

Which nodes of a software graph are deployments and which are tasks, and what has to hold of every
task before a descriptor can be made of the graph.

- `CompileError`: why a graph has no deployment descriptor.
- `processRole`: the name under which a task runs in a process.
- `Graph.roles`: the roles of all tasks of a valid graph.
-/

namespace ModelGraph

/-! ## Errors -/

/-- Why a graph cannot be compiled. -/
inductive CompileError where
  | invalidTypeNamespace (node typeName : String)
  | danglingParent (node parent : String)
  | deploymentNameCollision (task deployment : String)
  | wrongKind (expected actual : Kind)
  deriving DecidableEq, Repr

/-- The text of a compilation error. -/
def CompileError.message : CompileError → String
  | invalidTypeNamespace node typeName =>
    "Invalid type namespace on node " ++ node ++ ": " ++ typeName ++
      ". Expected at least 3 ':'-separated segments"
  | danglingParent node parent =>
    "Node " ++ node ++ " references parent " ++ parent ++
      ", which is not a deployment node of the graph"
  | deploymentNameCollision task deployment =>
    "Implicit deployment " ++ deployment ++ " of task " ++ task ++
      " collides with a deployment node of the same name"
  | wrongKind expected actual =>
    "Compilation needs a " ++ expected.name ++ " graph, current graph is " ++ actual.name

/-! ## Options -/

/-- The names and defaults that a descriptor is made with.

* A node of type `deploymentType` is a deployment.
* A node in `softwareDomain` that is no deployment is a task.
* A task of type `baseTaskType` runs before all others, which start in `preOperationalState`.
-/
structure CompileOptions where
  deploymentType : String := "software::Deployment"
  baseTaskType : String := "mars::Task"
  softwareDomain : String := "software"
  defaultDeployer : String := "orogen"
  defaultHost : String := "local"
  preOperationalState : String := "PRE_OPERATIONAL"
  deriving DecidableEq, Repr

namespace CompileOptions

/-- The node is a deployment. -/
def isDeployment (o : CompileOptions) (n : Node) : Bool := n.typeName == o.deploymentType

/-- The node is a task: it belongs to the software and is no deployment. Nodes of other domains are
left out of descriptors. -/
def isTask (o : CompileOptions) (n : Node) : Bool :=
  !o.isDeployment n && Text.sameIgnoringAsciiCase n.domain o.softwareDomain

end CompileOptions

/-! ## Names -/

/-- The segments of a type name between colons. A double colon has an empty segment in it, so a name
with one of these has three segments. -/
def typeSegments (typeName : String) : List String :=
  (Text.pieces ':' typeName.toList).map String.ofList

/-- The role of a task: made of the first and the third segment of its type name. -/
def processRole (node typeName : String) : Except CompileError String :=
  match typeSegments typeName with
  | first :: _ :: third :: _ => .ok ("orogen_default_" ++ first ++ "__" ++ third)
  | _ => .error (.invalidTypeNamespace node typeName)

/-- The name of the deployment of a task that has no parent. -/
def implicitDeployment (task : String) : String := task ++ "_deployment"

/-! ## Validation -/

namespace Graph

/-- A node with the name is a deployment. The first node with the name decides. -/
def hasDeployment (g : Graph) (o : CompileOptions) (name : String) : Bool :=
  (g.node? name).any o.isDeployment

/-- The parent of a task must be a deployment. The deployment of a task without a parent must not
have the name of a deployment node. -/
def checkPlace (g : Graph) (o : CompileOptions) (n : Node) : Except CompileError Unit :=
  match n.parent? with
  | some parent =>
    if g.hasDeployment o parent then .ok () else .error (.danglingParent n.name parent)
  | none =>
    if g.hasDeployment o (implicitDeployment n.name) then
      .error (.deploymentNameCollision n.name (implicitDeployment n.name))
    else .ok ()

/-- One more task checked, and its role noted. -/
def addRole (g : Graph) (o : CompileOptions) (roles : OrderedMap String) (n : Node) :
    Except CompileError (OrderedMap String) := do
  -- a task with both faults is refused for its place
  g.checkPlace o n
  let role ← processRole n.name n.typeName
  .ok (roles.insert n.name role)

/-- The roles of the tasks, unless one of them is not valid. Tasks are checked in the order of the
nodes, and the first one that is not valid decides about the error. -/
def roles (g : Graph) (o : CompileOptions) : Except CompileError (OrderedMap String) :=
  (g.nodes.filter o.isTask).foldlM (g.addRole o) OrderedMap.empty

end Graph
end ModelGraph
