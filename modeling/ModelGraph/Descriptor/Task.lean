import ModelGraph.Tree.Path
import ModelGraph.Tree.Trim

/-!
# Data of nodes

What the data of a node says for a descriptor: the configuration of a task, and the settings of a
deployment. Data is trimmed first, so that nothing blank gets into a descriptor.
-/

namespace ModelGraph

/-- The entries of the trimmed data of a node, none if it is not a map. Whatever a descriptor says
about a node comes from here. -/
def trimmedFields (data : Option Tree) : OrderedMap Tree :=
  ((data.map Tree.trim).map Tree.fields).getD OrderedMap.empty

/-! ## Tasks -/

/-- The entries with the properties that have a value moved to the end; others are dropped. Only the
list of the node itself is looked at: the inner configuration is spread later, with whatever
properties it has. -/
def keepValuedProperties (m : OrderedMap Tree) : OrderedMap Tree :=
  match m.take "properties" with
  | (some properties, rest) =>
    match (properties.seq?.getD []).filter (·.hasField "Value") with
    -- a list without valued properties goes altogether
    | [] => rest
    | kept => rest.insert "properties" (.seq kept)
  | (none, _) => m

/-- The entries with those of the inner configuration added, as far as their keys are new. What the
node says itself wins over what its configuration says. -/
def spreadConfiguration (m : OrderedMap Tree) : OrderedMap Tree :=
  match m.take "configuration" with
  | (some configuration, rest) =>
    configuration.fields.toList.foldl (fun rest (key, value) => rest.insertIfNew key value) rest
  | (none, _) => m

/-- The configuration of a task. Of its properties those with a value are kept, its inner
configuration is spread among the other keys, and its description is dropped. -/
def taskConfig (data : Option Tree) : OrderedMap Tree :=
  (spreadConfiguration (keepValuedProperties (trimmedFields data))).erase "description"

/-! ## Deployments -/

/-- What a deployment node says about its deployment. -/
structure DeploymentOverrides where
  deployer : Option String := none
  processName : Option String := none
  hostId : Option String := none
  deriving DecidableEq, Repr

/-- The settings in the configuration of a deployment node. Blank ones have been trimmed away, so
they count as not given. -/
def deploymentOverrides (data : Option Tree) : DeploymentOverrides :=
  match (trimmedFields data).get? "configuration" with
  | none => {}
  | some configuration =>
    let setting (key : String) := (configuration.field? key).bind Tree.text?
    { deployer := setting "deployer"
      processName := setting "process_name"
      hostId := setting "hostID" }

end ModelGraph
