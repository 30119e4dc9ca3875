import ModelGraph.FileTree.Action
import ModelGraph.Graph.Node
import ModelGraph.Store.Id

/-!
# Control subgraphs

A control subgraph is used as a node type: its inputs and outputs are the ports. A library holds
subgraph documents under the names of their types.

- `NodeType.ofSubgraph`: the node type of a subgraph document.
- `SubgraphLibrary`: where node types of subgraphs come from.
-/

namespace ModelGraph

/-- The names of the nodes of a type in a subgraph document, in the order of the document. Nodes
without a name are passed over. -/
def portNames (kind : String) (nodes : List Tree) : List String :=
  nodes.filterMap fun node =>
    if (node.field? "type").bind Tree.string? = some kind then
      (node.field? "name").bind Tree.text?
    else none

/-- The node type of a subgraph: an input for every `INPUT` node and an output for every `OUTPUT`
node, with the names of these nodes. -/
def NodeType.ofSubgraph (name : String) (document : Tree) : Except StoreError NodeType :=
  match (document.field? "nodes").bind Tree.seq? with
  | none => .error (.invalidDefinition ("subgraph " ++ name ++ " has no nodes"))
  | some nodes =>
    .ok { name, domain := controlDomain, inputs := portNames "INPUT" nodes,
          outputs := portNames "OUTPUT" nodes }

/-- Where node types of subgraphs come from. Nothing keeps a library from answering with a type of
another name than the one that it is asked for. -/
structure SubgraphLibrary where
  load : String → Except StoreError NodeType

namespace SubgraphLibrary

/-- Documents by the names of their types. -/
def ofDocuments (documents : OrderedMap Tree) : SubgraphLibrary where
  load := fun name =>
    match documents.get? name with
    | some document => NodeType.ofSubgraph name document
    | none => .error (.invalidDefinition ("subgraph " ++ name ++ " not found"))

/-- The documents in a directory of a file tree. -/
def ofDirectory (files : FileTree) (directory : String) : SubgraphLibrary where
  load := fun name =>
    let path := Path.join directory name
    -- a directory with this name is no subgraph
    if files.isFile path then
      match files.readYaml path with
      | .ok document => NodeType.ofSubgraph name document
      | .error e => .error (.document e)
    else
      .error (.invalidDefinition ("subgraph " ++ name ++ " not found in " ++ directory))

end SubgraphLibrary
end ModelGraph
