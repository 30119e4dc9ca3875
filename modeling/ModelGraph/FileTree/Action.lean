import ModelGraph.FileTree.Basic
import ModelGraph.Yaml.Printer
import ModelGraph.Yaml.Reader

/-!
# Documents and actions on files

YAML documents read from files and written to files, and steps that change a file tree one after
the other until one of them fails. What has been changed before a failure stays changed.
-/

namespace ModelGraph

/-! ## Documents -/

namespace FileTree

/-- The tree in a YAML file. -/
def readYaml (t : FileTree) (path : String) : Except DocumentError Tree :=
  match t.read path with
  | .error fault => .error (.file fault)
  | .ok text =>
    match Yaml.readTree text with
    | .ok tree => .ok tree
    | .error fault => .error (.yaml fault)

/-- A tree written to a file as YAML. -/
def writeYaml (t : FileTree) (path : String) (tree : Tree) : Except DocumentError FileTree :=
  match t.write path (Yaml.render tree) with
  | .ok t => .ok t
  | .error fault => .error (.file fault)

/-- The trees of all files that hold YAML. -/
def yamlDocuments (t : FileTree) : List Tree :=
  t.files.values.filterMap fun text => (Yaml.readTree text).toOption

end FileTree

/-! ## Actions -/

/-- A step on a file tree that may fail. -/
abbrev FileAction (ε α : Type) := FileTree → Except ε α × FileTree

namespace FileAction

variable {ε α β : Type}

/-- The step that only answers. -/
def pure (a : α) : FileAction ε α := fun t => (.ok a, t)

/-- The step that only fails. -/
def fail (e : ε) : FileAction ε α := fun t => (.error e, t)

/-- One step after another. -/
def andThen (first : FileAction ε α) (next : α → FileAction ε β) : FileAction ε β := fun t =>
  match first t with
  | (.ok a, t) => next a t
  | (.error e, t) => (.error e, t)

instance : Monad (FileAction ε) where
  pure := pure
  bind := andThen

/-- A result that does not depend on the files. -/
def ofExcept (result : Except ε α) : FileAction ε α := fun t => (result, t)

/-- A question about the files. -/
def ask (question : FileTree → α) : FileAction ε α := fun t => (.ok (question t), t)

/-- A change of the files that either happens as a whole or not at all. -/
def change (wrap : FileFault → ε) (step : FileTree → Except FileFault FileTree) :
    FileAction ε Unit := fun t =>
  match step t with
  | .ok changed => (.ok (), changed)
  | .error fault => (.error (wrap fault), t)

/-- The directory for a file made. The failure is told with the path of the directory. -/
def makeParent (wrap : String → FileFault → ε) (path : String) : FileAction ε Unit := fun t =>
  match t.makeParent path with
  | (.ok (), t) => (.ok (), t)
  | (.error fault, t) => (.error (wrap ((Path.parent? path).getD "") fault), t)

/-- A file written. -/
def write (wrap : FileFault → ε) (path text : String) : FileAction ε Unit :=
  change wrap fun t => t.write path text

end FileAction
end ModelGraph
