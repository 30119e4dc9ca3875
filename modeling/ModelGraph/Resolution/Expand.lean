import ModelGraph.Resolution.Basic

/-!
# Expansion

Mechanics components are expanded into a flat control graph. An actuator of a fragment becomes a
terminal node. Every other mechanics node refers to a component, whose definition is expanded under
the name of the node as a prefix. The control subgraph of a fragment becomes one node, whose
outputs are joined to the terminal nodes of the same fragment with the same names.

Nothing is added that is there already, so expanding a fragment a second time changes nothing.

- `Progress.addTerminal`, `Progress.connectControl`: what is added for one fragment.
- `expandNodeWith`, `expandWith`: a node of a fragment and a fragment with everything they refer to,
  whichever way definitions are got.
- `expandNode`, `expand`: the same in a session, with its cache.
-/

namespace ModelGraph
namespace Progress

/-! ## Adding -/

/-- A node added to the graph and to the journal. -/
def addNode (p : Progress) (n : Node) : Outcome :=
  match p.graph.addNode n with
  | .ok graph => (.ok (), { p with graph, addedNodes := p.addedNodes ++ [n.name] })
  | .error e => (.error (.graph e), p)

/-- An edge added to the graph and to the journal. -/
def addEdge (p : Progress) (e : Edge) : Outcome :=
  match p.graph.addEdge e with
  | .ok graph => (.ok (), { p with graph, addedEdges := p.addedEdges ++ [e] })
  | .error e => (.error (.graph e), p)

/-- A node type registered. -/
def register (p : Progress) (t : NodeType) : Progress := { p with graph := p.graph.register t }

/-- The terminal node for an actuator, unless there is a node with the name. Whatever this node is,
it is left as it is, so an actuator with the name of another node goes without one of its own. -/
def addTerminal (p : Progress) (name : String) : Outcome :=
  if p.graph.hasNode name then (.ok (), p)
  else
    -- the type comes with the first actuator, and stays when a later step fails
    let p := if p.graph.hasNodeType terminalType then p else p.register NodeType.terminal
    p.addNode (NodeType.terminal.instantiate name)

/-! ## Control -/

/-- The name of a subgraph without what follows its last point. -/
def subgraphStem (control : String) : String :=
  match control.toList.reverse.dropWhile (· ≠ '.') with
  | [] => control
  | _ :: before => String.ofList before.reverse

/-- The edge from an output of a control node to the terminal node of the same name. The output has
the name of the actuator, and the terminal node has this name under the prefix. -/
def controlEdge (node pre terminal : String) : Edge :=
  .control ⟨node, terminal, prefixed pre terminal, terminalInput⟩

/-- An output of a control node joined to the terminal node of the same name, if there is such an
output and they are not joined yet. -/
def joinTerminal (node pre : String) (outputs : List String) (terminal : String) (p : Progress) :
    Outcome :=
  let e := controlEdge node pre terminal
  -- a fragment that is expanded again meets the edge it has added before
  if outputs.contains terminal && !p.graph.hasEdge e then p.addEdge e else (.ok (), p)

/-- The type of a control subgraph registered, if it is not yet; none if it cannot be loaded. A type
that is registered under this name before is taken for that of the subgraph, whoever has registered
it. -/
def loadControl (p : Progress) (library : SubgraphLibrary) (control : String) : Option Progress :=
  if p.graph.hasNodeType control then some p
  else
    match library.load control with
    | .ok t => some (p.register t)
    | .error _ => none

/-- The node of a control subgraph, unless there is a node with the name. Nothing is added if the
library has registered another type than the one that it was asked for. -/
def addControl (p : Progress) (control name : String) : Outcome :=
  if p.graph.hasNode name then (.ok (), p)
  else
    match p.graph.nodeType? control with
    | some t => p.addNode (t.instantiate name)
    | none => (.ok (), p)

/-- The outputs of a control node joined to terminal nodes, as far as there is such a node. -/
def joinControl (p : Progress) (node pre : String) (terminals : List String) : Outcome :=
  match p.graph.node? node with
  | some n => Outcome.each (joinTerminal node pre (n.outputs.map Port.name)) terminals p
  | none => (.ok (), p)

/-- The control node of a fragment with its edges. Nothing is added if the subgraph cannot be
loaded, and this is no failure: the fragment then goes without control. -/
def connectControl (p : Progress) (library : SubgraphLibrary) (control pre : String)
    (terminals : List String) : Outcome :=
  match p.loadControl library control with
  | none => (.ok (), p)
  | some p =>
    let name := prefixed pre (subgraphStem control)
    (p.addControl control name).andThen fun p => p.joinControl name pre terminals

end Progress

/-! ## Fragments -/

/-- A node of a fragment expanded with definitions from a supplier, inside the components of a path.
`descend` expands the fragment of a definition. Nodes of other domains than mechanics are passed
over. -/
def expandNodeWith (supplier : Supplier)
    (descend : List ComponentId → Fragment → String → Progress → Outcome)
    (path : List ComponentId) (pre : String) (node : FragmentNode) (p : Progress) : Outcome :=
  let name := prefixed pre node.name
  if node.isTerminal then p.addTerminal name
  else if node.isReference then
    let id := definitionId node.model
    -- cycles are found before the definition is looked up, which therefore is
    -- neither fetched nor counted once more
    if path.contains id then (.error (.cycle (path ++ [id])), p)
    else
      let (definition, p) := p.ask supplier id
      -- a component that is nowhere is noted, and the rest is expanded without it
      if definition.isEmpty then (.ok (), p.miss)
      else descend (path ++ [id]) (Fragment.ofDocument definition) name p
  else (.ok (), p)

/-- The names of the actuators of a fragment. -/
def Fragment.terminals (f : Fragment) : List String :=
  (f.nodes.filter FragmentNode.isTerminal).map FragmentNode.name

/-- The control subgraph of a fragment connected, if it has one. -/
def Progress.connect (p : Progress) (library : SubgraphLibrary) (fragment : Fragment)
    (pre : String) : Outcome :=
  match fragment.control with
  | none => (.ok (), p)
  | some control => p.connectControl library control pre fragment.terminals

/-- A fragment expanded under a prefix, with definitions from a supplier. `path` holds the
components that are being expanded, from the outside in, and `levels` how many more may be opened
inside them. The levels only bound the recursion: where they are enough, having more of them makes
no difference. -/
def expandWith (supplier : Supplier) (library : SubgraphLibrary) :
    Nat → List ComponentId → Fragment → String → Progress → Outcome
  | 0, _, _, _, p => (.error .tooDeep, p)
  | levels + 1, path, fragment, pre, p =>
    -- nodes come first, since the control subgraph is joined to the terminal nodes that
    -- they have become
    (Outcome.each (expandNodeWith supplier (expandWith supplier library levels) path pre)
      fragment.nodes p).andThen fun p => p.connect library fragment pre

/-! ## Sessions

What a session does is the expansion with definitions from its cache or else from the store. -/

/-- A node of a fragment expanded in a session. -/
def expandNode (sources : Sources) :
    (List ComponentId → Fragment → String → Progress → Outcome) →
      List ComponentId → String → FragmentNode → Progress → Outcome :=
  expandNodeWith sources.definitions.cached

/-- A fragment expanded in a session. -/
def expand (sources : Sources) :
    Nat → List ComponentId → Fragment → String → Progress → Outcome :=
  expandWith sources.definitions.cached sources.library

/-- One level of an expansion in a session: the nodes of the fragment up to the first one that
fails, and then its control subgraph. -/
theorem expand_succ (sources : Sources) (levels : Nat) (path : List ComponentId)
    (fragment : Fragment) (pre : String) (p : Progress) :
    expand sources (levels + 1) path fragment pre p =
      (Outcome.each (expandNode sources (expand sources levels) path pre) fragment.nodes p).andThen
        fun p => p.connect sources.library fragment pre := rfl

end ModelGraph
