import ModelGraph.Text.Basic

/-!
# Paths

The text of paths: pieces between slashes. Pieces that are empty or a single dot carry no meaning
behind the first piece, but stay in the text as long as no piece behind them is taken away.

- `Path.join`: a path below another.
- `Path.parent?`, `Path.fileName?`, `Path.stem?`, `Path.withFileName`: the last name of a path.
-/

namespace ModelGraph.Path

/-- The path begins at the root. -/
def isAbsolute (path : String) : Bool := path.toList.head? == some '/'

/-- A path below another. A path from the root replaces the other, and a path without text adds a
slash at the end. -/
def join (base part : String) : String :=
  if isAbsolute part then part
  else if base.isEmpty || base.toList.getLast? == some '/' then base ++ part
  else base ++ "/" ++ part

/-- The names and dots that a path leads through. -/
def segments (path : String) : List String :=
  ((Text.pieces '/' path.toList).map String.ofList).filter (· ≠ "")

/-- A piece that carries no meaning behind the first piece. -/
def isIdle (piece : String) : Bool := piece == "" || piece == "."

/-- Pieces without idle ones at the end. -/
def dropIdleEnd (pieces : List String) : List String :=
  (pieces.reverse.dropWhile isIdle).reverse

/-- A path as its first piece and the pieces behind it up to the last one that has a meaning. -/
def split (path : String) : String × List String :=
  match Text.pieces '/' path.toList with
  | [] => ("", [])
  | first :: rest => (String.ofList first, dropIdleEnd (rest.map String.ofList))

/-- The text of pieces. -/
def unsplit (absolute : Bool) (first : String) (rest : List String) : String :=
  if absolute && rest.isEmpty then "/" else Text.joined "/" (first :: rest)

/-- The path without its last piece. The root and the path without text have no parent. -/
def parent? (path : String) : Option String :=
  match split path with
  -- a first piece with text is a name of its own, below the path without text
  | (first, []) => if first.isEmpty then none else some ""
  | (first, rest) => some (unsplit (isAbsolute path) first (dropIdleEnd rest.dropLast))

/-- The last piece of a path, if it is a name. -/
def fileName? (path : String) : Option String :=
  match split path with
  | (first, []) => if isIdle first || first == ".." then none else some first
  | (_, rest) => rest.getLast?.filter (· ≠ "..")

/-- The path with another last name. A path that does not end in a name is a directory for it. -/
def withFileName (path name : String) : String :=
  match fileName? path with
  | some _ => join ((parent? path).getD "") name
  | none => join path name

/-- A name cut at its last point. A point at the beginning alone is none. -/
def cutAtPoint (name : String) : String × Option String :=
  let reversed := name.toList.reverse
  match reversed.dropWhile (· ≠ '.') with
  | [] => (name, none)
  -- the only point is the first character, so the name is hidden and has no extension
  | _ :: [] => (name, none)
  | _ :: before =>
    (String.ofList before.reverse, some (String.ofList (reversed.takeWhile (· ≠ '.')).reverse))

/-- The last name up to its last point. -/
def stem? (path : String) : Option String := (fileName? path).map fun name => (cutAtPoint name).1

/-- The last name behind its last point. -/
def extension? (path : String) : Option String :=
  (fileName? path).bind fun name => (cutAtPoint name).2

/-- The path, its parent, the parent of that, and so on. `steps` bounds their number. -/
def ancestors : Nat → String → List String
  | 0, _ => []
  | steps + 1, path =>
    path :: (match parent? path with
      | some p => ancestors steps p
      | none => [])

/-- The path and all paths above it, from the inside out. -/
def upwards (path : String) : List String := ancestors (path.length + 1) path

end ModelGraph.Path
