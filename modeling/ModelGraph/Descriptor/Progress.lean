import ModelGraph.Tree.Basic

/-!
# Progress and statistics

The phases that a compilation goes through, and what it counts on the way.
-/

namespace ModelGraph

/-! ## Phases -/

/-- A phase of a compilation. -/
inductive Phase where
  | validation
  | deployments
  | tasks
  | consolidation
  | connections
  | staging
  | complete
  deriving DecidableEq, Repr

namespace Phase

/-- The phases in their order. -/
def all : List Phase :=
  [validation, deployments, tasks, consolidation, connections, staging, complete]

/-- The name of a phase. -/
def name : Phase → String
  | validation => "Validation"
  | deployments => "Deployments"
  | tasks => "Tasks"
  | consolidation => "Consolidation"
  | connections => "Connections"
  | staging => "Staging"
  | complete => "Complete"

/-- What is done in a phase. -/
def description : Phase → String
  | validation => "Checking parent references and type names"
  | deployments => "Creating explicit deployments"
  | tasks => "Normalizing task configurations"
  | consolidation => "Merging multi-task deployments"
  | connections => "Collecting connections between tasks"
  | staging => "Building the staged startup document"
  | complete => "Compilation completed successfully"

/-- How much of the work is done when a phase begins, in percent. -/
def percent : Phase → Nat
  | validation => 0
  | deployments => 15
  | tasks => 30
  | consolidation => 55
  | connections => 70
  | staging => 85
  | complete => 100

end Phase

/-! ## Statistics -/

/-- What a compilation has counted. It is taken from the graph and from the finished descriptor, and
not counted on the way. -/
structure CompileStats where
  inputNodes : Nat
  inputEdges : Nat
  tasks : Nat
  deployments : Nat
  multiTaskDeployments : Nat
  connections : Nat
  droppedEdges : Nat
  baseTasks : Nat
  deriving DecidableEq, Repr

/-- A count as a leaf. -/
def countTree (n : Nat) : Tree := .scalar (.ofUnsigned (UInt64.ofNat n))

/-- The document of the statistics. -/
def CompileStats.toTree (s : CompileStats) : Tree :=
  .map ⟨[("input_nodes", countTree s.inputNodes), ("input_edges", countTree s.inputEdges),
    ("tasks", countTree s.tasks), ("deployments", countTree s.deployments),
    ("multi_task_deployments", countTree s.multiTaskDeployments),
    ("connections", countTree s.connections), ("dropped_edges", countTree s.droppedEdges),
    ("base_tasks", countTree s.baseTasks)]⟩

end ModelGraph
