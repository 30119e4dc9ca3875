import ModelGraph.Document.Error
import ModelGraph.Text.LowerCase
import ModelGraph.Tree.Path

/-!
# Component identities

Component definitions are known by their domain, their name and their version. A definition says
itself which identity it has.
-/

namespace ModelGraph

/-- The identity of a component definition. Stores keep definitions under it, and references between
components name it. -/
structure ComponentId where
  domain : String
  name : String
  version : String
  deriving DecidableEq, Repr

/-- The text of an identity. -/
def ComponentId.toText (id : ComponentId) : String :=
  id.domain ++ "/" ++ id.name ++ "/" ++ id.version

/-- Why an operation on a model store fails. -/
inductive StoreError where
  | file (fault : FileFault)
  | document (error : DocumentError)
  | invalidDefinition (reason : String)
  | missingComponent (id : ComponentId)
  deriving Repr

/-- The text of a store error. -/
def StoreError.message : StoreError → String
  | file fault => "I/O error: " ++ fault.message
  | document error => "Malformed document: " ++ error.message
  | invalidDefinition reason => "Invalid component definition: " ++ reason
  | missingComponent id => "Component not found in the model store: " ++ id.toText

/-- The first of the versions of a definition, which is the only one that is looked at. -/
def Tree.firstVersion? (definition : Tree) : Option Tree :=
  (definition.field? "versions").bind (·.element? 0)

namespace ComponentId

/-- A text that must be there and must not be empty. The error names the key. -/
def required (definition : Tree) (key : String) : Except StoreError String :=
  match ((definition.field? key).bind Tree.text?).filter (· ≠ "") with
  | some value => .ok value
  | none => .error (.invalidDefinition ("missing " ++ key))

/-- A text that is there and is not empty. -/
theorem required_eq_ok {definition value : Tree} {key text : String}
    (hfield : definition.field? key = some value) (htext : value.text? = some text)
    (hne : text ≠ "") : required definition key = .ok text := by
  have hkept : ((definition.field? key).bind Tree.text?).filter (· ≠ "") = some text := by
    rw [hfield, Option.bind_some, htext, Option.filter_some, if_pos (decide_eq_true hne)]
  rw [required, hkept]

/-- The identity that a definition declares: its domain in lower case, its name, and the name of
its first version. -/
def ofDefinition (definition : Tree) : Except StoreError ComponentId := do
  let domain ← required definition "domain"
  let name ← required definition "name"
  -- the name of the version may be empty, unlike domain and name
  match (definition.firstVersion?.bind (·.field? "name")).bind Tree.text? with
  | some version => .ok ⟨Text.toLower domain, name, version⟩
  | none => .error (.invalidDefinition (name ++ " has no version"))

end ComponentId
end ModelGraph
