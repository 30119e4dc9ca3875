import ModelGraph.Resolution.Expand

/-!
# Resolution

A fragment is expanded into a graph. If the expansion fails, the nodes and edges it has added are
taken out again, the last ones first.

- `Session.resolve`: a fragment expanded under a prefix.
- `Session.convert`: a mechanics definition turned into a control graph.
-/

namespace ModelGraph

/-- What a call gives: its report or its error, the graph after it, and the session after it. There
is a graph and a session also after a failure. -/
structure Resolution where
  result : Except ResolveError ResolveReport
  graph : Graph
  session : Session

/-- The graph without what the journal says has been added. Types that have been registered stay, as
the journal does not list them. -/
def Progress.rollBack (p : Progress) : Graph :=
  let graph := p.addedEdges.reverse.foldl Graph.removeEdge p.graph
  -- a node takes along every edge at it, so an edge that was dangling before the call is
  -- lost if the call has added the node at its end
  p.addedNodes.reverse.foldl Graph.removeNode graph

/-- The models that the nodes of a fragment refer to. -/
def Fragment.models (f : Fragment) : List String :=
  (f.nodes.filter FragmentNode.isReference).map FragmentNode.model

namespace Session

/-- The definitions that can come up in a session. -/
def reachable (s : Session) (sources : Sources) : List Tree :=
  s.cache.values ++ sources.definitions.documents

/-- A bound for the levels of an expansion: no component is expanded inside itself, so there are no
more levels than models that are referred to, and one for the fragment itself. -/
def levels (s : Session) (sources : Sources) (fragment : Fragment) : Nat :=
  (fragment.models ++
    (s.reachable sources).flatMap fun d => (Fragment.ofDocument d).models).length + 1

/-- The expansion of a fragment, with the components on the way to it, and with levels enough for
any definition that can come up. -/
def run (s : Session) (sources : Sources) (path : List ComponentId) (graph : Graph)
    (fragment : Fragment) (pre : String) : Outcome :=
  expand sources (s.levels sources fragment) path fragment pre { graph, cache := s.cache }

/-- A fragment expanded into a graph under a prefix, inside the components of a path. -/
def resolveWithin (s : Session) (sources : Sources) (path : List ComponentId) (graph : Graph)
    (document : Tree) (pre : String) : Resolution :=
  match s.run sources path graph (Fragment.ofDocument document) pre with
  | (.ok (), p) => ⟨.ok p.report, p.graph, ⟨p.cache, s.fetches + p.fetches⟩⟩
  -- what has been fetched on the way is known to the session all the same
  | (.error e, p) => ⟨.error e, p.rollBack, ⟨p.cache, s.fetches + p.fetches⟩⟩

/-- A fragment expanded into a graph under a prefix. If this fails, what has been added to the graph
is taken back, and the session keeps what it has fetched. -/
def resolve (s : Session) (sources : Sources) (graph : Graph) (document : Tree) (pre : String) :
    Resolution :=
  s.resolveWithin sources [] graph document pre

/-- The session with nothing in its cache. The count of fetches goes on. -/
def clear (s : Session) : Session := { s with cache := Table.empty }

/-- A mechanics definition expanded into the graph of a control view, with nothing cached before.
The definition itself counts as being expanded, if it declares an identity. -/
def convert (s : Session) (sources : Sources) (view : View) (definition : Tree) : Resolution :=
  if view.kind = .control then
    s.clear.resolveWithin sources (ComponentId.ofDefinition definition).toOption.toList view.graph
      definition ""
  else ⟨.error (.wrongKind .control view.kind), view.graph, s⟩

end Session
end ModelGraph
