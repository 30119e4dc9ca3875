import ModelGraph.Store.Id
import ModelGraph.Yaml.Embedded

/-!
# Fragments

The parts of a definition that matter for resolution: its nodes with the models they refer to, and
the control subgraph that goes with them. A definition may hold its components and its mechanics
data as trees or as YAML text.

- `Fragment.ofDocument`: the fragment of a definition, or of a document that is only its components.
-/

namespace ModelGraph

/-- A node of a fragment with the model that it is an instance of. Texts that a document does not
give are empty. -/
structure FragmentNode where
  name : String
  domain : String
  model : String
  version : String
  deriving DecidableEq, Repr

/-- Nodes to expand, and the control subgraph to connect them with. -/
structure Fragment where
  nodes : List FragmentNode
  control : Option String
  deriving DecidableEq, Repr

namespace Fragment

/-- The text at the end of a path of keys, empty if there is none. Numbers and truth values have
texts too, so a name may be one of these. -/
def textAt (entry : Tree) (path : List String) : String :=
  ((entry.at? path).bind Tree.text?).getD ""

/-- A node of the component list. Entries without a name are no nodes. -/
def node? (entry : Tree) : Option FragmentNode :=
  let name := textAt entry ["name"]
  if name.isEmpty then none
  else
    some {
      name
      domain := textAt entry ["model", "domain"]
      model := textAt entry ["model", "name"]
      version := textAt entry ["model", "version"] }

/-- The nodes of a component document. -/
def nodesOf (components : Tree) : List FragmentNode :=
  match (components.document?.bind (·.field? "nodes")).bind Tree.seq? with
  | some entries => entries.filterMap node?
  | none => []

/-- The control subgraph that mechanics data names. The data may be a text with a document in it,
and an empty name is none. -/
def controlOf (mechanics : Tree) : Option String :=
  ((((mechanics.field? "data").bind Tree.document?).bind (·.field? "bagel_control")).bind
    Tree.text?).filter (· ≠ "")

/-- The fragment of components and mechanics data, either of which may be missing. What cannot be
read is left out and is no failure. -/
def ofParts (components mechanics : Option Tree) : Fragment :=
  ⟨(components.map nodesOf).getD [], mechanics.bind controlOf⟩

/-- The fragment of a document: of the first version of a definition, or of a document that has no
versions and is the component document itself. -/
def ofDocument (document : Tree) : Fragment :=
  match document.firstVersion? with
  | some version => ofParts (version.field? "components") (version.field? "mechanicsData")
  | none => ofParts (some document) (document.field? "mechanicsData")

end Fragment
end ModelGraph
