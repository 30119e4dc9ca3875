import ModelGraph.FileTree.Path
import ModelGraph.Store.Basic
import ModelGraph.Yaml.Embedded

/-!
# Motion control tasks

A motion control task is a software task that runs a control graph. Its definition is a copy of a
template in the model store, which takes the version of the graph and points at the file of the
graph.
-/

namespace ModelGraph
namespace MotionTask

/-- The identity of the template. Its version is a name like any other, so a task may be stored
under it, and the template is lost then. -/
def templateId : ComponentId := ⟨"software", "behavior_graph::MotionControlTask", "template"⟩

/-- The maturity of a definition that has just been made. -/
def inProgress : String := "INPROGRESS"

/-- The file of a control graph: `<base>/bagel/<graph>/<version>/<graph>.yml`. -/
def graphFilename (base graph version : String) : String :=
  Path.join (Path.join (Path.join (Path.join base "bagel") graph) version) (graph ++ ".yml")

/-- The default configuration of a version, either as a tree or as text. It has no entries where
there is none that is a map, and what cannot be read counts as none. -/
def configuration (version : Tree) : Tree :=
  match (version.at? ["defaultConfiguration", "data"]).bind Tree.document? with
  | some (.map fields) => .map fields
  | _ => Tree.emptyMap

/-- A version of the template made into the version that runs a graph. Name, maturity and
configuration are set, in this order, and everything else stays. -/
def version (template : Tree) (name graphFile : String) : Tree :=
  let named := (template.set "name" (.text name)).set "maturity" (.text inProgress)
  -- what stands in the way to the file name is replaced by a map
  let config := (configuration named).setAt ["config"] "graphFilename" (.text graphFile)
  named.setAt ["defaultConfiguration"] "data" config.embed

/-- The template made into the definition of a task. Only its first version changes. -/
def ofTemplate (template : Tree) (name graphFile : String) : Except StoreError Tree :=
  if template.isEmpty then .error (.missingComponent templateId)
  else
    match template.field? "versions" with
    | some (.seq (first :: others)) =>
      .ok (template.set "versions" (.seq (version first name graphFile :: others)))
    | _ => .error (.invalidDefinition (templateId.toText ++ " has no version"))

variable {σ : Type} [ModelStore σ]

/-- The definition of the task that runs the graph of a file. -/
def definition (store : σ) (name graphFile : String) : Except StoreError Tree × σ :=
  match ModelStore.fetch store templateId with
  | (.error e, store) => (.error e, store)
  | (.ok template, store) => (ofTemplate template name graphFile, store)

/-- Puts the task that runs the graph of a file into a store, and answers its identity. Everything
of this identity but the version comes from the template. -/
def store (store : σ) (name graphFile : String) : Except StoreError ComponentId × σ :=
  match definition store name graphFile with
  | (.error e, store) => (.error e, store)
  | (.ok task, store) =>
    match ModelStore.put store task with
    | (.error e, store) => (.error e, store)
    | (.ok (), store) => (ComponentId.ofDefinition task, store)

end MotionTask
end ModelGraph
