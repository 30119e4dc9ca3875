import ModelGraph.Graph.Basic
import ModelGraph.Resolution.Fragment
import ModelGraph.Resolution.Subgraph
import ModelGraph.Store.Basic
import ModelGraph.Table

/-!
# Sessions

What a resolution works with: the sources of definitions and of subgraphs, the definitions that a
session has fetched already, and the progress of a single call with the journal of what it has
added to the graph.

- `Sources`, `Session`: what a call is given, and what stays from one call to the next.
- `Supplier`, `DefinitionSource.cached`: ways to get definitions, and the one that sessions have.
- `Progress`, `Outcome`: the state of a call, and the end of one of its steps.
-/

namespace ModelGraph

/-! ## Names -/

/-- The model that stands for a physical actuator. -/
def terminalModel : String := "motor_universal"

/-- The domain of the components that are expanded. -/
def mechanicsDomain : String := "mechanics"

/-- The version in which definitions of components are fetched. -/
def definitionVersion : String := "v1"

/-- A name under a prefix. Under the empty prefix it stays as it is. Two different pairs of a prefix
and a name may give the same name, as the underscore between them may occur in either. -/
def prefixed (pre name : String) : String := if pre.isEmpty then name else pre ++ "_" ++ name

/-- The identity of the definition of a component. Neither the domain nor the version that a node
gives is looked at here: all components are fetched from one domain in one version. -/
def definitionId (model : String) : ComponentId := ⟨mechanicsDomain, model, definitionVersion⟩

namespace FragmentNode

/-- The node is an instance of a mechanics component. -/
def isMechanics (n : FragmentNode) : Bool := Text.sameIgnoringAsciiCase n.domain mechanicsDomain

/-- The node is a physical actuator. -/
def isTerminal (n : FragmentNode) : Bool := n.isMechanics && n.model == terminalModel

/-- The node refers to the definition of a component. -/
def isReference (n : FragmentNode) : Bool := n.isMechanics && n.model != terminalModel

end FragmentNode

/-! ## Errors -/

/-- Why a fragment cannot be resolved. A `cycle` lists the components on the way, with the one that
comes again at the end. `tooDeep` is for sources that answer with definitions they do not list: then
there is no bound for the levels of an expansion. For complete sources it never comes up. -/
inductive ResolveError where
  | cycle (path : List ComponentId)
  | wrongKind (expected actual : Kind)
  | graph (error : GraphError)
  | tooDeep
  deriving Repr

/-- The text of a resolution error. -/
def ResolveError.message : ResolveError → String
  | cycle path =>
    "Circular component reference: " ++ Text.joined " -> " (path.map ComponentId.toText)
  | wrongKind expected actual =>
    "Resolution needs a " ++ expected.name ++ " graph, current graph is " ++ actual.name
  | graph error => error.message
  | tooDeep => "Component references are nested deeper than the listed definitions allow"

/-! ## State -/

/-- Where definitions and subgraphs come from. A resolution takes them as they are; neither changes
while it goes on. -/
structure Sources where
  definitions : DefinitionSource
  library : SubgraphLibrary

/-- What a call has changed, and how it got its definitions. -/
structure ResolveReport where
  nodesAdded : Nat
  edgesAdded : Nat
  lookupMisses : Nat
  cacheHits : Nat
  storeFetches : Nat
  deriving DecidableEq, Repr

/-- What stays from one call to the next: the definitions fetched so far, those that are missing
included, and how often the store has been asked. The graph is no part of it, as calls with
different graphs may share a session. -/
structure Session where
  cache : Table ComponentId Tree
  fetches : Nat
  deriving Repr

/-- A session that has not fetched anything. -/
def Session.fresh : Session := ⟨Table.empty, 0⟩

/-! ## Ways to get definitions -/

/-- What a call notes about definitions: those in its cache, and how often it has found one there
or has asked the store. -/
structure Supply where
  cache : Table ComponentId Tree
  hits : Nat
  fetches : Nat

/-- A way to get the definition of a component, with what is noted about it. An expansion works with
any of them, and nothing else about definitions matters to it, so an expansion with a cache can be
compared with one that has none. -/
abbrev Supplier := Supply → ComponentId → Tree × Supply

/-- A definition from the cache or else from the store. What is cached is never asked for again,
even if the store would answer differently by now. -/
def DefinitionSource.cached (source : DefinitionSource) : Supplier := fun s id =>
  match s.cache.get? id with
  | some known => (known, { s with hits := s.hits + 1 })
  | none =>
    -- an empty answer is kept as well, so no store is asked twice for one component
    let fetched := source.answer id
    (fetched, { s with cache := s.cache.set id fetched, fetches := s.fetches + 1 })

/-! ## Progress -/

/-- The progress of a call. `addedNodes` and `addedEdges` are the journal of what has been added to
the graph, in this order. It is what a call that fails takes back, and what a call that succeeds
counts. -/
structure Progress where
  graph : Graph
  cache : Table ComponentId Tree
  addedNodes : List String := []
  addedEdges : List Edge := []
  misses : Nat := 0
  hits : Nat := 0
  fetches : Nat := 0
  deriving Repr

namespace Progress

/-- What a call has noted about definitions. -/
def supply (p : Progress) : Supply := ⟨p.cache, p.hits, p.fetches⟩

/-- The progress with other notes about definitions. -/
def withSupply (p : Progress) (s : Supply) : Progress :=
  { p with cache := s.cache, hits := s.hits, fetches := s.fetches }

/-- A definition from a supplier. The graph and the journal have no part in this. -/
def ask (p : Progress) (supplier : Supplier) (id : ComponentId) : Tree × Progress :=
  let answer := supplier p.supply id
  (answer.1, p.withSupply answer.2)

/-- A component noted as missing. -/
def miss (p : Progress) : Progress := { p with misses := p.misses + 1 }

/-- The report of a call that has come to its end. What has been added is counted by the journal, so
there are no counters that could go astray. -/
def report (p : Progress) : ResolveReport :=
  ⟨p.addedNodes.length, p.addedEdges.length, p.misses, p.hits, p.fetches⟩

end Progress

/-! ## Steps -/

/-- The end of a step: whether it has failed, and the progress made in any case. Progress is kept
also where a step fails, since what has been added by then has to be taken back. -/
abbrev Outcome := Except ResolveError Unit × Progress

namespace Outcome

/-- A step and then another one, which is left out if the first one has failed. The failure keeps
the progress of the first step. -/
def andThen (o : Outcome) (next : Progress → Outcome) : Outcome :=
  match o with
  | (.ok (), p) => next p
  | (.error e, p) => (.error e, p)

/-- A step for every element of a list, up to the first one that fails. -/
def each {α : Type} (step : α → Progress → Outcome) : List α → Progress → Outcome
  | [], p => (.ok (), p)
  | a :: rest, p => (step a p).andThen (each step rest)

end Outcome

end ModelGraph
