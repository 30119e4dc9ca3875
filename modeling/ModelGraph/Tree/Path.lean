import ModelGraph.Tree.Basic

/-!
# Paths of keys

Reading along a chain of map keys, and writing along one: `child` makes a map of whatever stands
in the way, so that a write always succeeds, and touches nothing beside the path.

- `Tree.at?`: the tree at the end of a path.
- `Tree.set`: one key of a map set.
- `Tree.updateAt`: the tree at the end of a path changed, with maps made on the way.
- `Tree.along?`, `Tree.editAt`: the tree at the end of existing steps, and a change of it.
-/

namespace ModelGraph
namespace Tree

/-- Follows a chain of map keys. -/
def at? (t : Tree) : List String → Option Tree
  | [] => some t
  | key :: rest => (t.field? key).bind (·.at? rest)

/-- The tree itself if it is a map, and the map without entries otherwise. This is what a write puts
in the place of a leaf or a sequence that stands in its way. -/
def toMap (t : Tree) : Tree := map t.fields

/-- Sets a key, making a map of the tree first where it is none. -/
def set (t : Tree) (key : String) (value : Tree) : Tree := map (t.fields.insert key value)

/-- The map below a key, or the map without entries where there is none. -/
def child (t : Tree) (key : String) : Tree := ((t.field? key).map toMap).getD emptyMap

/-- Changes the map below a key, which is made where there is none. -/
def updateChild (t : Tree) (key : String) (f : Tree → Tree) : Tree := t.set key (f (t.child key))

/-- Changes the map at the end of a path of keys, making maps on the way. At the end of the empty
path stands the tree itself, as it is. -/
def updateAt (t : Tree) (f : Tree → Tree) : List String → Tree
  | [] => f t
  | key :: rest => t.updateChild key fun inner => inner.updateAt f rest

/-- Sets the last key of a path, making maps on the way. -/
def setAt (t : Tree) (path : List String) (key : String) (value : Tree) : Tree :=
  t.updateAt (·.set key value) path

/-! ## Existing places -/

/-- One step down into a tree: to a key of a map or to a position of a sequence. -/
inductive Step where
  | key (name : String)
  | position (index : Nat)
  deriving DecidableEq, Repr

/-- The child a step leads to. -/
def step? (t : Tree) : Step → Option Tree
  | .key name => t.field? name
  | .position index => t.element? index

/-- The tree at the end of steps down, to keys of maps or to positions of sequences. -/
def along? (t : Tree) : List Step → Option Tree
  | [] => some t
  | step :: rest => (t.step? step).bind (·.along? rest)

/-- The tree with the child of a step replaced. A step that leads to no child changes nothing,
unlike `set`, which makes a place for a key that is new. -/
def replaceChild (t : Tree) (inner : Tree) : Step → Tree
  | .key name => match t with
    | map fields => map (fields.modify name fun _ => inner)
    | other => other
  | .position index => match t with
    | seq items => seq (items.set index inner)
    | other => other

/-- Changes the tree at the end of existing steps and answers with what the change answers; nothing
for steps that do not exist. -/
def editAt {α : Type} (f : Tree → α × Tree) (t : Tree) : List Step → Option (α × Tree)
  | [] => some (f t)
  | s :: rest =>
    (t.step? s).bind fun inner =>
      -- nothing is replaced unless all the steps behind this one exist
      (editAt f inner rest).map fun (answer, changed) => (answer, t.replaceChild changed s)

end Tree
end ModelGraph
