import ModelGraph.Document.Error
import ModelGraph.FileTree.Path
import ModelGraph.Table

/-!
# File trees

Directories and text files below a root, with a working directory among them. A place is the list of
the names that lead to it from the root, and a path leads to a place: one that begins with a slash
from the root, any other from the working directory.

- `FileTree.read`, `FileTree.write`, `FileTree.remove`: files.
- `FileTree.makeDirectory`, `FileTree.makeDirectories`: directories.
-/

namespace ModelGraph

/-- What stands at a place. -/
inductive FileEntry where
  | directory
  | file (text : String)
  deriving DecidableEq, Repr

/-- Directories and text files by their places. The working directory `home` and those around it are
always there, so they need not be listed. -/
structure FileTree where
  directories : List (List String)
  files : Table (List String) String
  home : List String
  deriving DecidableEq, Repr

namespace FileTree

/-- The tree with a working directory and nothing else. -/
def empty (home : List String) : FileTree := ⟨[], Table.empty, home⟩

/-- What stands at a place. -/
def entry? (t : FileTree) (place : List String) : Option FileEntry :=
  if place.isPrefixOf t.home ∨ place ∈ t.directories then some .directory
  else (t.files.get? place).map .file

/-! ## Finding places -/

/-- The longest name that a file system takes, in bytes. -/
def longestName : Nat := 255

/-- The longest path that a file system takes, in bytes. -/
def longestPath : Nat := 4095

/-- The directory that a segment of a path leads to. -/
def enter (t : FileTree) (place : List String) (segment : String) :
    Except FileFault (List String) :=
  -- both are names in every directory, so neither is looked up
  if segment = "." then .ok place
  else if segment = ".." then .ok place.dropLast
  else if segment.utf8ByteSize > longestName then .error .nameTooLong
  else
    match t.entry? (place ++ [segment]) with
    | some .directory => .ok (place ++ [segment])
    | some (.file _) => .error .notDirectory
    | none => .error .notFound

/-- Where a path leads: a directory, and the last segment to be looked up in it. A `closed` path
ends with a slash, and so has to lead to a directory. -/
structure Target where
  place : List String
  last : String
  closed : Bool

/-- The place where a path begins. -/
def start (t : FileTree) (path : String) : List String :=
  if Path.isAbsolute path then [] else t.home

/-- The target of a path: every segment but the last one has to lead to a directory. The path
without text leads nowhere. -/
def target (t : FileTree) (path : String) : Except FileFault Target :=
  if path.toList.contains '\x00' then .error .invalidName
  else if path.utf8ByteSize > longestPath then .error .nameTooLong
  else
    match (Path.segments path).getLast? with
    -- slashes alone lead to the root
    | none => if path.isEmpty then .error .notFound else .ok ⟨[], ".", true⟩
    | some last => do
      -- only the directories on the way have to be there, and the last segment may be new
      let place ← (Path.segments path).dropLast.foldlM t.enter (t.start path)
      if last.utf8ByteSize > longestName then .error .nameTooLong
      else .ok ⟨place, last, path.toList.getLast? == some '/'⟩

/-- The last segment leads up or nowhere. -/
def Target.isDots (x : Target) : Bool := x.last == "." || x.last == ".."

/-- The place of a target whose last segment is a name. -/
def Target.full (x : Target) : List String := x.place ++ [x.last]

/-- What a path leads to. -/
def look (t : FileTree) (path : String) : Except FileFault FileEntry := do
  let x ← t.target path
  if x.isDots then
    let _ ← t.enter x.place x.last
    .ok .directory
  else
    match t.entry? x.full with
    | some .directory => .ok .directory
    -- a slash at the end asks for a directory
    | some (.file text) => if x.closed then .error .notDirectory else .ok (.file text)
    | none => .error .notFound

/-- The path leads to something. -/
def contains (t : FileTree) (path : String) : Bool := (t.look path).isOk

/-- The path leads to a file. -/
def isFile (t : FileTree) (path : String) : Bool :=
  match t.look path with
  | .ok (.file _) => true
  | _ => false

/-- The path leads to a directory. -/
def isDirectory (t : FileTree) (path : String) : Bool :=
  match t.look path with
  | .ok .directory => true
  | _ => false

/-! ## Files -/

/-- The text of a file. -/
def read (t : FileTree) (path : String) : Except FileFault String := do
  match ← t.look path with
  | .directory => .error .isDirectory
  | .file text => .ok text

/-- A file written, in place of an earlier one. -/
def write (t : FileTree) (path text : String) : Except FileFault FileTree := do
  let x ← t.target path
  if x.isDots || x.closed then .error .isDirectory
  else
    match t.entry? x.full with
    -- a directory is not replaced by a file
    | some .directory => .error .isDirectory
    | _ => .ok { t with files := t.files.set x.full text }

/-- A file removed. -/
def remove (t : FileTree) (path : String) : Except FileFault FileTree := do
  let x ← t.target path
  -- what is removed has to be there, unlike what is written
  match ← t.look path with
  | .directory => .error .isDirectory
  | .file _ => .ok { t with files := t.files.erase x.full }

/-! ## Directories -/

/-- One more directory, inside one that is there. -/
def makeDirectory (t : FileTree) (path : String) : Except FileFault FileTree := do
  let x ← t.target path
  if x.isDots || (t.entry? x.full).isSome then .error .exists
  else .ok { t with directories := t.directories ++ [x.full] }

/-- The first of some paths, from the inside out, made as a directory after those around it. -/
def makeWithin (t : FileTree) : List String → Except FileFault Unit × FileTree
  | [] => (.error .notFound, t)
  | path :: outer =>
    if path.isEmpty then (.ok (), t)
    else
      match t.makeDirectory path with
      | .ok made => (.ok (), made)
      -- only a missing parent is worth another attempt, after the parents have been made
      | .error .notFound =>
        match makeWithin t outer with
        | (.error fault, t) => (.error fault, t)
        -- the parents are there now, so this attempt tells the reason that counts
        | (.ok (), t) =>
          match t.makeDirectory path with
          | .ok made => (.ok (), made)
          | .error fault => if t.isDirectory path then (.ok (), t) else (.error fault, t)
      -- there already, which `makeDirectory` refuses
      | .error fault => if t.isDirectory path then (.ok (), t) else (.error fault, t)

/-- A directory made together with those around it that are missing. What has been made stays, even
if not everything could be made. -/
def makeDirectories (t : FileTree) (path : String) : Except FileFault Unit × FileTree :=
  t.makeWithin (Path.upwards path)

/-- The directory of a file made, unless the path has no directory. -/
def makeParent (t : FileTree) (path : String) : Except FileFault Unit × FileTree :=
  match Path.parent? path with
  | some parent => t.makeDirectories parent
  | none => (.ok (), t)

/-! ## Listing -/

/-- The path of a place below the working directory. -/
def pathOf? (t : FileTree) (place : List String) : Option String :=
  if t.home.isPrefixOf place then some (Text.joined "/" (place.drop t.home.length)) else none

/-- The files below the working directory with their paths, sorted by path. -/
def list (t : FileTree) : List (String × String) :=
  let found := t.files.entries.filterMap fun (place, text) =>
    (t.pathOf? place).map fun path => (path, text)
  found.mergeSort fun a b => decide (a.1 ≤ b.1)

end FileTree
end ModelGraph
