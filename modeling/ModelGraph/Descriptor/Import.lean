import ModelGraph.FileTree.Action
import ModelGraph.Store.Id
import ModelGraph.Text.Digits
import ModelGraph.Yaml.Embedded

/-!
# Imported descriptors

A deployment descriptor turned back into the definition of a software component. Every task becomes
a node whose model is the type of the task, and the entry of the task is kept as text.
-/

namespace ModelGraph

/-! ## Points in time -/

/-- A date of the calendar with the time of a day, without a time zone. -/
structure Timestamp where
  year : Int
  month : Nat
  day : Nat
  hour : Nat
  minute : Nat
  second : Nat
  deriving DecidableEq, Repr

namespace Timestamp

/-- The text of a year. Four digits are enough for most years, and others have a sign in front. -/
def yearText (year : Int) : List Char :=
  if 0 ≤ year ∧ year ≤ 9999 then Text.padded 4 year.toNat
  else (if year < 0 then '-' else '+') :: Text.padded 4 year.natAbs

/-- The text of a point in time. -/
def toText (t : Timestamp) : String :=
  String.ofList (yearText t.year ++ '-' :: Text.padded 2 t.month ++ '-' :: Text.padded 2 t.day ++
    'T' :: Text.padded 2 t.hour ++ ':' :: Text.padded 2 t.minute ++ ':' :: Text.padded 2 t.second)

end Timestamp

/-! ## Definitions -/

namespace Import

/-- The domain of imported definitions. -/
def domain : String := "SOFTWARE"

/-- The version of imported definitions and of the models of their nodes. -/
def version : String := "v0.0.1"

/-- The node of a task. -/
def taskNode (task : String) (entry : Tree) : Tree :=
  let model : Tree := .map ⟨[("domain", .text domain), ("version", .text version),
    ("name", (entry.field? "type").getD (.text ""))]⟩
  .map ⟨[("name", .text task), ("model", model)]⟩

/-- The configuration of a task. The whole entry of the task is kept there as text, its type and its
state included. -/
def taskConfiguration (task : String) (entry : Tree) : Tree :=
  .map ⟨[("data", entry.embed), ("name", .text task)]⟩

/-- The tasks of a descriptor. -/
def tasks (descriptor : Tree) : List (String × Tree) :=
  ((descriptor.field? "tasks").map fun t => t.fields.toList).getD []

/-- The components of the definition. Without tasks there is no configuration. -/
def components (tasks : List (String × Tree)) : Tree :=
  let nodes := tasks.map fun (task, entry) => taskNode task entry
  let configurations := tasks.map fun (task, entry) => taskConfiguration task entry
  .map ⟨[("nodes", .seq nodes), ("edges", .seq [])] ++
    (if configurations.isEmpty then []
      else [("configuration", .map ⟨[("nodes", .seq configurations)]⟩)])⟩

/-- The definition that holds the tasks of a descriptor. Deployments and connections of the
descriptor are not taken over. -/
def definition (descriptor : Tree) (name modelPath : String) (date : Timestamp) : Tree :=
  let entry : Tree := .map ⟨[("name", .text version), ("projectName", .text ""),
    ("designedBy", .text ""), ("date", .text date.toText),
    ("components", components (tasks descriptor))]⟩
  .map ⟨[("name", .text name), ("domain", .text domain), ("type", .text "CND"),
    ("versions", .seq [entry]), ("modelPath", .text modelPath)]⟩

/-- The definition for a descriptor file. The component has the name of the file. -/
def ofFile (files : FileTree) (path : String) (date : Timestamp) : Except StoreError Tree :=
  match files.readYaml path with
  | .ok descriptor =>
    .ok (definition descriptor ((Path.stem? path).getD "") ((Path.parent? path).getD "") date)
  | .error e => .error (.document e)

end Import
end ModelGraph
