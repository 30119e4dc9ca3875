import ModelGraph.FileTree.Action
import ModelGraph.Store.Basic

/-!
# Stores on files

Every definition is a YAML file `<root>/<domain>/<name>/<version>.yml`. Colons and slashes of an
identity become underscores in the names of files.
-/

namespace ModelGraph

/-- A directory of definitions in a file tree. The tree holds other files as well, which the store
may come across. -/
structure FileStore where
  root : String
  files : FileTree
  deriving Repr

/-- A part of an identity as the name of a file. What separates names in a path
becomes an underscore, so different parts may have the same name here. Dots are
kept, and two of them lead up. -/
def fileComponent (part : String) : String :=
  String.ofList (part.toList.map fun c => if c = ':' || c = '/' || c = '\\' then '_' else c)

namespace FileStore

/-- The path of the definition with an identity. The domain is in lower case there, whatever case
the identity has it in. -/
def pathOf (root : String) (id : ComponentId) : String :=
  Path.join (Path.join (Path.join root (fileComponent (Text.toLower id.domain)))
    (fileComponent id.name)) (fileComponent id.version ++ ".yml")

/-- The definition with an identity. It is empty where there is no file. -/
def fetch (s : FileStore) (id : ComponentId) : Except StoreError Tree :=
  let path := pathOf s.root id
  if s.files.contains path then
    match s.files.readYaml path with
    | .ok definition => .ok definition
    | .error e => .error (.document e)
  else .ok Tree.emptyMap

/-- A definition written to its file. Whatever was in the file is overwritten. -/
def put (s : FileStore) (definition : Tree) : Except StoreError Unit × FileStore :=
  match ComponentId.ofDefinition definition with
  | .error e => (.error e, s)
  | .ok id =>
    let path := pathOf s.root id
    match s.files.makeParent path with
    -- directories that have been made stay, even if one of them cannot be made
    | (.error fault, files) => (.error (.file fault), { s with files })
    | (.ok (), files) =>
      match files.writeYaml path definition with
      | .error e => (.error (.document e), { s with files })
      | .ok files => (.ok (), { s with files })

instance : ModelStore FileStore where
  fetch s id := (s.fetch id, s)
  put := put

/-- The files of the store as a source of definitions. -/
def source (s : FileStore) : DefinitionSource :=
  ⟨s.fetch, s.files.yamlDocuments⟩

end FileStore
end ModelGraph
