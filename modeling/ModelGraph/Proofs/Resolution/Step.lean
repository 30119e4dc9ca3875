import Mathlib.Logic.Relation
import ModelGraph.Proofs.Graph.Changes
import ModelGraph.Resolution.Resolve

/-!
# Steps of an expansion

An expansion is a run of small steps: a node or an edge is added, a type is registered, a definition
is asked for, or a component is noted as missing. `Step` says what each of them does and when it is
taken, and `expand_steps` that an expansion consists of nothing else, whether it fails or not. What
a single step preserves is therefore preserved by every expansion.

- `Occurrence`, `Reaches`: the fragments that an expansion comes across, with their prefixes.
- `Step`, `Steps`: what happens on the way.
- `expand_steps`: an expansion is a run of steps for the occurrences that it reaches.
-/

namespace ModelGraph

/-! ## Definitions at hand -/

/-- The definition of a component where some are cached and the others are asked for. -/
def DefinitionSource.known (source : DefinitionSource) (cache : Table ComponentId Tree)
    (id : ComponentId) : Tree :=
  (cache.get? id).getD (source.answer id)

/-- Putting into the cache what is asked for does not change what is known. -/
theorem DefinitionSource.known_set (source : DefinitionSource) {cache : Table ComponentId Tree}
    {id : ComponentId} (h : cache.get? id = none) :
    source.known (cache.set id (source.answer id)) = source.known cache := by
  funext k
  simp only [known, Table.get?_set]
  split
  · rename_i hk
    rw [hk, h]
    rfl
  · rfl

/-- The definitions that a call works with. -/
def Progress.lookup (p : Progress) (source : DefinitionSource) : ComponentId → Tree :=
  source.known p.cache

/-- The definitions that a session works with. -/
def Session.lookup (s : Session) (sources : Sources) : ComponentId → Tree :=
  sources.definitions.known s.cache

/-- A session that has not fetched anything works with what the store answers. -/
theorem Session.lookup_fresh (sources : Sources) :
    Session.fresh.lookup sources = sources.definitions.answer := rfl

namespace Progress

/-- The progress after a definition has been asked for. -/
def asked (p : Progress) (source : DefinitionSource) (id : ComponentId) : Progress :=
  (p.ask source.cached id).2

/-- Asking in a session gives the definition that is known there. -/
theorem ask_cached (p : Progress) (source : DefinitionSource) (id : ComponentId) :
    p.ask source.cached id = (p.lookup source id, p.asked source id) := by
  unfold asked ask lookup DefinitionSource.known DefinitionSource.cached supply
  dsimp only
  cases p.cache.get? id <;> rfl

/-- Asking for a definition does not change what is known. -/
@[simp]
theorem lookup_asked (p : Progress) (source : DefinitionSource) (id : ComponentId) :
    (p.asked source id).lookup source = p.lookup source := by
  unfold asked ask lookup DefinitionSource.cached supply
  dsimp only
  cases h : p.cache.get? id with
  | some known => rfl
  | none => exact source.known_set h

/-- Asking for a definition does not change the graph. -/
@[simp]
theorem asked_graph (p : Progress) (source : DefinitionSource) (id : ComponentId) :
    (p.asked source id).graph = p.graph := rfl

/-- Nor does it change the journal of nodes. -/
@[simp]
theorem asked_addedNodes (p : Progress) (source : DefinitionSource) (id : ComponentId) :
    (p.asked source id).addedNodes = p.addedNodes := rfl

/-- Nor does it change the journal of edges. -/
@[simp]
theorem asked_addedEdges (p : Progress) (source : DefinitionSource) (id : ComponentId) :
    (p.asked source id).addedEdges = p.addedEdges := rfl

end Progress

/-! ## Occurrences -/

/-- A fragment together with the prefix that it is expanded under. -/
structure Occurrence where
  fragment : Fragment
  pre : String

namespace Occurrence

/-- The name that a node of the fragment has in the graph. -/
def nodeName (o : Occurrence) (name : String) : String := prefixed o.pre name

/-- The name that the node of a control subgraph has in the graph. -/
def controlName (o : Occurrence) (control : String) : String :=
  prefixed o.pre (Progress.subgraphStem control)

/-- The edge from an output of the control node to the actuator of the same name. -/
def edge (o : Occurrence) (control terminal : String) : Edge :=
  Progress.controlEdge (o.controlName control) o.pre terminal

/-- The fragment of a component under the name of the node that refers to it. -/
def child (o : Occurrence) (lookup : ComponentId → Tree) (x : FragmentNode) : Occurrence :=
  ⟨Fragment.ofDocument (lookup (definitionId x.model)), o.nodeName x.name⟩

/-- A node of the first fragment refers to a component that is not missing, and the second fragment
is the one of this component. -/
def Opens (lookup : ComponentId → Tree) (o o' : Occurrence) : Prop :=
  ∃ x ∈ o.fragment.nodes, x.isReference = true ∧
    (lookup (definitionId x.model)).isEmpty = false ∧ o' = o.child lookup x

/-- The occurrences of fragments in the expansion of a fragment, the fragment itself included. -/
def Reaches (lookup : ComponentId → Tree) : Occurrence → Occurrence → Prop :=
  Relation.ReflTransGen (Opens lookup)

end Occurrence

/-! ## Steps -/

namespace Progress

/-- The progress with one more node. -/
def withNode (p : Progress) (n : Node) : Progress :=
  { p with graph := { p.graph with nodes := p.graph.nodes ++ [n] },
           addedNodes := p.addedNodes ++ [n.name] }

/-- The progress with one more edge. -/
def withEdge (p : Progress) (e : Edge) : Progress :=
  { p with graph := { p.graph with edges := p.graph.edges ++ [e] },
           addedEdges := p.addedEdges ++ [e] }

/-- A node with a new name is added and noted in the journal. The same name never comes into the
journal twice, which is what rolling back relies on. -/
theorem addNode_of_new {p : Progress} {n : Node} (h : p.graph.hasNode n.name = false) :
    p.addNode n = (.ok (), p.withNode n) := by
  simp only [addNode, Graph.addNode_of_new h, withNode]

/-- A new edge is added and noted in the journal. -/
theorem addEdge_of_new {p : Progress} {e : Edge} (h : p.graph.hasEdge e = false) :
    p.addEdge e = (.ok (), p.withEdge e) := by
  simp only [addEdge, Graph.addEdge_of_new h, withEdge]

/-- What can happen in an expansion that comes across some occurrences, and when it happens. Each
step carries the test that the expansion has made before it, so an invariant of expansions needs one
case for each step and no other knowledge of how they come about. -/
inductive Step (sources : Sources) (occurs : Occurrence → Prop) : Progress → Progress → Prop where
  /-- The type of terminal nodes is registered where it is not. -/
  | registerTerminal {p : Progress} (hnew : p.graph.hasNodeType terminalType = false) :
      Step sources occurs p (p.register NodeType.terminal)
  /-- An actuator gets a terminal node, where no node has its name. -/
  | terminal {p : Progress} {o : Occurrence} {m : String} (ho : occurs o)
      (hm : m ∈ o.fragment.terminals) (hnew : p.graph.hasNode (o.nodeName m) = false) :
      Step sources occurs p (p.withNode (NodeType.terminal.instantiate (o.nodeName m)))
  /-- The type of a control subgraph is registered where it is not. -/
  | registerControl {p : Progress} {o : Occurrence} {c : String} {t : NodeType} (ho : occurs o)
      (hc : o.fragment.control = some c) (hnew : p.graph.hasNodeType c = false)
      (hload : sources.library.load c = .ok t) :
      Step sources occurs p (p.register t)
  /-- A control subgraph gets a node of its registered type, where no node has its name. -/
  | control {p : Progress} {o : Occurrence} {c : String} {t : NodeType} (ho : occurs o)
      (hc : o.fragment.control = some c) (ht : p.graph.nodeType? c = some t)
      (hnew : p.graph.hasNode (o.controlName c) = false) :
      Step sources occurs p (p.withNode (t.instantiate (o.controlName c)))
  /-- An output of a control node is joined to the actuator of its name, where it is not. -/
  | edge {p : Progress} {o : Occurrence} {c m : String} {n : Node} (ho : occurs o)
      (hc : o.fragment.control = some c) (hm : m ∈ o.fragment.terminals)
      (hn : p.graph.node? (o.controlName c) = some n) (hout : m ∈ n.outputs.map Port.name)
      (hnew : p.graph.hasEdge (o.edge c m) = false) :
      Step sources occurs p (p.withEdge (o.edge c m))
  /-- The definition of a component is asked for. -/
  | ask {p : Progress} {o : Occurrence} {x : FragmentNode} (ho : occurs o)
      (hx : x ∈ o.fragment.nodes) (hr : x.isReference = true) :
      Step sources occurs p (p.asked sources.definitions (definitionId x.model))
  /-- A component is noted as missing. -/
  | miss {p : Progress} : Step sources occurs p p.miss

/-- A run of steps. -/
def Steps (sources : Sources) (occurs : Occurrence → Prop) : Progress → Progress → Prop :=
  Relation.ReflTransGen (Step sources occurs)

variable {sources : Sources} {occurs occurs' : Occurrence → Prop} {p p' p'' : Progress}

/-- A step may be taken where more occurrences are come across. -/
theorem Step.mono (hsub : ∀ o, occurs o → occurs' o) (h : Step sources occurs p p') :
    Step sources occurs' p p' := by
  cases h with
  | registerTerminal hnew => exact .registerTerminal hnew
  | terminal ho hm hnew => exact .terminal (hsub _ ho) hm hnew
  | registerControl ho hc hnew hload => exact .registerControl (hsub _ ho) hc hnew hload
  | control ho hc ht hnew => exact .control (hsub _ ho) hc ht hnew
  | edge ho hc hm hn hout hnew => exact .edge (hsub _ ho) hc hm hn hout hnew
  | ask ho hx hr => exact .ask (hsub _ ho) hx hr
  | miss => exact .miss

namespace Steps

/-- No steps at all. -/
theorem refl (p : Progress) : Steps sources occurs p p := Relation.ReflTransGen.refl

/-- A run and another one behind it. -/
theorem trans (h : Steps sources occurs p p') (h' : Steps sources occurs p' p'') :
    Steps sources occurs p p'' :=
  Relation.ReflTransGen.trans h h'

/-- A single step. -/
theorem single (h : Step sources occurs p p') : Steps sources occurs p p' :=
  Relation.ReflTransGen.single h

/-- A run among more occurrences. -/
theorem mono (hsub : ∀ o, occurs o → occurs' o) (h : Steps sources occurs p p') :
    Steps sources occurs' p p' :=
  Relation.ReflTransGen.mono (fun _ _ hs => hs.mono hsub) _ _ h

end Steps

/-- A step does not change what is known. -/
theorem Step.lookup_eq (h : Step sources occurs p p') :
    p'.lookup sources.definitions = p.lookup sources.definitions := by
  cases h with
  | ask _ _ _ => exact lookup_asked ..
  | _ => rfl

/-- A run works with the same definitions from its start to its end, although its cache grows. -/
theorem Steps.lookup_eq (h : Steps sources occurs p p') :
    p'.lookup sources.definitions = p.lookup sources.definitions := by
  induction h with
  | refl => rfl
  | tail _ hstep ih => rw [hstep.lookup_eq, ih]

/-- A step takes nothing out of the graph. -/
theorem Step.grows (h : Step sources occurs p p') : p.graph.Grows p'.graph := by
  cases h with
  | registerTerminal hnew | registerControl _ _ hnew _ =>
    exact ⟨List.prefix_refl _, List.prefix_refl _, fun _ hn => Graph.hasNodeType_register hn _⟩
  | terminal _ _ _ | control _ _ _ _ =>
    exact ⟨List.prefix_append _ _, List.prefix_refl _, fun _ hn => hn⟩
  | edge _ _ _ _ _ _ => exact ⟨List.prefix_refl _, List.prefix_append _ _, fun _ hn => hn⟩
  | ask _ _ _ =>
    rw [asked_graph]
    exact .refl _
  | miss => exact .refl _

/-- A run takes nothing out of the graph. -/
theorem Steps.grows (h : Steps sources occurs p p') : p.graph.Grows p'.graph := by
  induction h with
  | refl => exact .refl _
  | tail _ hstep ih => exact ih.trans hstep.grows

end Progress

/-! ## Series of steps -/

namespace Outcome

/-- How a series of steps from `p` ends: every element has been dealt with, or one of them has
failed after those before it have been dealt with. `R` relates the states on the way. -/
inductive EachEnds {α : Type} (R : Progress → Progress → Prop) (step : α → Progress → Outcome)
    (l : List α) (p : Progress) : Outcome → Prop where
  | done {p' : Progress} (hp : R p p')
      (hall : ∀ a ∈ l, ∃ q q', R p q ∧ step a q = (.ok (), q') ∧ R q' p') :
      EachEnds R step l p (.ok (), p')
  | failed {before after : List α} {a : α} {q q' : Progress} {e : ResolveError}
      (hl : l = before ++ a :: after)
      (hbefore : ∀ b ∈ before, ∃ r r', R p r ∧ step b r = (.ok (), r')) (hq : R p q)
      (hstep : step a q = (.error e, q')) (hq' : R p q') :
      EachEnds R step l p (.error e, q')

variable {α : Type} {R : Progress → Progress → Prop} {step : α → Progress → Outcome}

/-- A series of steps ends in one of the two ways, if `R` holds from the start of each of its steps
to its end. -/
theorem each_ends (hrefl : ∀ p, R p p) (htrans : ∀ {p q r}, R p q → R q r → R p r) {l : List α} :
    ∀ {p : Progress}, (∀ a ∈ l, ∀ q, R p q → R q (step a q).2) →
      EachEnds R step l p (each step l p) := by
  induction l with
  | nil => intro p _; exact .done (hrefl p) (by simp)
  | cons a rest ih =>
    intro p hstep
    have hfirst : R p (step a p).2 := hstep a List.mem_cons_self p (hrefl p)
    rw [each]
    rcases ha : step a p with ⟨_ | _, p₁⟩
    · -- the first step fails, and the rest is left out
      rename_i e
      rw [ha] at hfirst
      exact .failed (List.nil_append _).symm (by simp) (hrefl p) ha hfirst
    · rw [ha] at hfirst
      have hrest := ih (p := p₁) fun b hb q hq =>
        hstep b (List.mem_cons_of_mem _ hb) q (htrans hfirst hq)
      rw [andThen]
      generalize each step rest p₁ = o at hrest
      cases hrest with
      | done hp hall =>
        -- what the rest does comes after the first step, and what relates them composes
        refine .done (htrans hfirst hp) fun b hb => ?_
        rcases List.mem_cons.mp hb with rfl | hb
        · exact ⟨p, p₁, hrefl p, ha, hp⟩
        · obtain ⟨q, q', hq, hb', hq'⟩ := hall b hb
          exact ⟨q, q', htrans hfirst hq, hb', hq'⟩
      | failed hl hbefore hq hfail hq' =>
        have hl' := congrArg (a :: ·) hl
        refine .failed (hl'.trans (List.cons_append ..).symm) (fun b hb => ?_)
          (htrans hfirst hq) hfail (htrans hfirst hq')
        rcases List.mem_cons.mp hb with rfl | hb
        · exact ⟨p, p₁, hrefl p, ha⟩
        · obtain ⟨r, r', hr, hb'⟩ := hbefore b hb
          exact ⟨r, r', htrans hfirst hr, hb'⟩

/-- However a series of steps ends, `R` holds from its start to its end. -/
theorem EachEnds.rel {l : List α} {p : Progress} {o : Outcome} (h : EachEnds R step l p o) :
    R p o.2 := by
  cases h with
  | done hp _ => exact hp
  | failed _ _ _ _ hq' => exact hq'

/-- One step after another succeeds only if both do. -/
theorem andThen_eq_ok {o : Outcome} {next : Progress → Outcome} {p' : Progress}
    (h : o.andThen next = (.ok (), p')) : ∃ q, o = (.ok (), q) ∧ next q = (.ok (), p') := by
  obtain ⟨_ | _, q⟩ := o
  · cases h
  · exact ⟨q, rfl, h⟩

/-- A series of steps that succeeds, split at one of its elements. What holds right after the step
at the element can then be followed to the end of the series. -/
theorem each_split {l : List α} {a : α} (ha : a ∈ l) :
    ∀ {p p' : Progress}, each step l p = (.ok (), p') →
      ∃ before after q q', l = before ++ a :: after ∧ each step before p = (.ok (), q) ∧
        step a q = (.ok (), q') ∧ each step after q' = (.ok (), p') := by
  induction l with
  | nil => cases ha
  | cons b rest ih =>
    intro p p' h
    obtain ⟨q, hb, hrest⟩ := andThen_eq_ok h
    -- the element comes first, or the series before it gets one more step
    rcases List.mem_cons.mp ha with rfl | ha
    · exact ⟨[], rest, p, q, rfl, rfl, hb, hrest⟩
    · obtain ⟨before, after, r, r', rfl, hbefore, hstep, hafter⟩ := ih ha hrest
      refine ⟨b :: before, after, r, r', rfl, ?_, hstep, hafter⟩
      rw [each, hb]
      exact hbefore

end Outcome
end ModelGraph
