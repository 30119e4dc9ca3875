import ModelGraph.Proofs.Resolution.Cycle

/-!
# Repeated calls

A call finds everything that an earlier call with the same fragment has added, so a second one adds
nothing. There is one exception: the type of terminal nodes can be taken for a control subgraph of
the same name. If it is registered after this subgraph could not be used, then the second call uses
it. A third call adds nothing in any case.

- `Occurrence.SettledIn`: nothing is left to do for an occurrence.
- `expand_settles`: an expansion that succeeds leaves its occurrences settled.
- `expand_unmoved`: an expansion of settled occurrences changes nothing.
- `resolve_settles`: what both mean for repeated calls.
- `bareArm_resolved_twice`: a second call that adds a node.
-/

namespace ModelGraph

open Progress ModelGraph.Graph

/-! ## Settled occurrences -/

/-- Nothing is left to do for an occurrence: its actuators are there, and a control subgraph that
can be used has its type registered and is connected. An expansion tests the same before each of its
steps, and finds nothing to add. -/
structure Occurrence.SettledIn (o : Occurrence) (library : SubgraphLibrary) (g : Graph) : Prop where
  terminals : ∀ m ∈ o.fragment.terminals, g.hasNode (o.nodeName m) = true
  control : ∀ c, o.fragment.control = some c → g.CanUse library c →
    g.hasNodeType c = true ∧ o.Connected c g

/-- A connected control node is there. -/
theorem Occurrence.Connected.hasNode {o : Occurrence} {c : String} {g : Graph}
    (h : o.Connected c g) : g.hasNode (o.controlName c) = true := by
  obtain ⟨n, hn, -⟩ := h
  rw [Graph.hasNode, hn]
  rfl

/-- No control subgraph has become usable that was not before. Whether one can be used is tested in
the middle of an expansion, so a type that is registered behind the test makes a difference only to
the next call. -/
def NoneMadeUsable (library : SubgraphLibrary) (occurs : Occurrence → Prop) (g g' : Graph) : Prop :=
  ∀ o, occurs o → ∀ c, o.fragment.control = some c → g'.CanUse library c → g.CanUse library c

variable {sources : Sources} {lookup : ComponentId → Tree}

/-- **An expansion that succeeds leaves its occurrences settled**, if it does not itself make a
control subgraph usable. -/
theorem expand_settles (hlib : sources.library.NamesTypes) {levels : Nat} {path : List ComponentId}
    {o : Occurrence} {p p' : Progress} (hp : p.lookup sources.definitions = lookup)
    (h : expand sources levels path o.fragment o.pre p = (.ok (), p'))
    (hnone : NoneMadeUsable sources.library (o.Reaches lookup) p.graph p'.graph) {o' : Occurrence}
    (ho' : o.Reaches lookup o') : o'.SettledIn sources.library p'.graph := by
  obtain ⟨q, q', hsteps, hterminals, hconnect, hsteps'⟩ :=
    expand_visits levels path o p p' hp h o' ho'
  obtain ⟨q'', hconnect', hrun, hcontrol⟩ := connect_run sources q ho'
  rw [hconnect] at hconnect'
  cases hconnect'
  refine ⟨fun m hm => (hrun.trans hsteps').grows.hasNode (hterminals m hm), fun c hc huse => ?_⟩
  -- the subgraph could be used from the start, so it could when it was connected
  have huse' : q.graph.CanUse sources.library c := hsteps.grows.canUse (hnone o' ho' c hc huse)
  obtain ⟨htype, hconnected⟩ := hcontrol hlib c hc huse'
  exact ⟨hsteps'.grows.types c htype, hconnected.mono hsteps'.grows⟩

/-! ## Runs that change nothing -/

namespace Progress

/-- A run has added nothing to the graph and to the journal, and it knows what it knew before. -/
structure Unmoved (source : DefinitionSource) (p p' : Progress) : Prop where
  graph : p'.graph = p.graph
  addedNodes : p'.addedNodes = p.addedNodes
  addedEdges : p'.addedEdges = p.addedEdges
  lookup : p'.lookup source = p.lookup source

namespace Unmoved

variable {source : DefinitionSource} {p p' p'' : Progress}

/-- Nothing has happened. -/
theorem refl (p : Progress) : Unmoved source p p := ⟨rfl, rfl, rfl, rfl⟩

/-- Two runs that have changed nothing, one behind the other. -/
theorem trans (h : Unmoved source p p') (h' : Unmoved source p' p'') : Unmoved source p p'' :=
  ⟨h'.graph.trans h.graph, h'.addedNodes.trans h.addedNodes, h'.addedEdges.trans h.addedEdges,
    h'.lookup.trans h.lookup⟩

/-- Asking for a definition changes the cache and a counter, and neither counts here. -/
theorem asked (p : Progress) (id : ComponentId) : Unmoved source p (p.asked source id) :=
  ⟨asked_graph .., asked_addedNodes .., asked_addedEdges .., lookup_asked ..⟩

/-- Noting a component as missing changes a counter only. -/
theorem miss (p : Progress) : Unmoved source p p.miss := ⟨rfl, rfl, rfl, rfl⟩

end Unmoved

variable {p : Progress} {o : Occurrence}

/-- An actuator that is there is not added again. -/
theorem addTerminal_settled {name : String} (h : p.graph.hasNode name = true) :
    p.addTerminal name = (.ok (), p) := by
  rw [addTerminal, if_pos h]

/-- A series of steps that change nothing changes nothing. -/
private theorem each_eq_self {α : Type} {step : α → Progress → Outcome} {l : List α}
    (h : ∀ a ∈ l, step a p = (.ok (), p)) : Outcome.each step l p = (.ok (), p) := by
  induction l with
  | nil => rfl
  | cons a rest ih =>
    rw [Outcome.each, h a List.mem_cons_self]
    exact ih fun b hb => h b (List.mem_cons_of_mem _ hb)

/-- There is nothing to join where every output is joined to its actuator. An actuator that no
output is named after is joined to nothing in any case. -/
theorem joinControl_settled {control : String} (h : o.Connected control p.graph) :
    p.joinControl (o.controlName control) o.pre o.fragment.terminals = (.ok (), p) := by
  obtain ⟨n, hn, hedges⟩ := h
  unfold joinControl
  rw [hn]
  refine each_eq_self fun m hm => ?_
  unfold joinTerminal
  by_cases hout : m ∈ n.outputs.map Port.name
  · -- its edge is there already
    have hedge : p.graph.hasEdge (controlEdge (o.controlName control) o.pre m) = true :=
      hedges m hm hout
    simp only [hedge, Bool.not_true, Bool.and_false, Bool.false_eq_true, if_false]
  · -- the subgraph has no output for this actuator
    have hno : (n.outputs.map Port.name).contains m = false := by
      rw [← Bool.not_eq_true, List.contains_iff_mem]
      exact hout
    simp only [hno, Bool.false_and, Bool.false_eq_true, if_false]

/-- There is nothing to connect for a settled occurrence. -/
theorem connect_settled {library : SubgraphLibrary} (h : o.SettledIn library p.graph) :
    p.connect library o.fragment o.pre = (.ok (), p) := by
  unfold connect
  cases hc : o.fragment.control with
  | none => rfl
  | some c =>
    simp only [connectControl, loadControl]
    cases htype : p.graph.hasNodeType c with
    | true =>
      have hconnected : o.Connected c p.graph := (h.control c hc (.inl htype)).2
      have hadd : p.addControl c (o.controlName c) = (.ok (), p) := by
        rw [addControl, if_pos hconnected.hasNode]
      show (p.addControl c (o.controlName c)).andThen
        (fun p => p.joinControl (o.controlName c) o.pre o.fragment.terminals) = (.ok (), p)
      rw [hadd]
      exact joinControl_settled hconnected
    | false =>
      cases hload : library.load c with
      | error e =>
        -- it could not be used before and it cannot now
        rfl
      | ok t =>
        -- a type that can be loaded has been registered
        have hreg := (h.control c hc (.inr ⟨t, hload⟩)).1
        rw [htype] at hreg
        cases hreg

end Progress

/-- A node of a settled fragment changes nothing, if the component that it refers to changes
nothing. -/
theorem expandNode_unmoved {descend : List ComponentId → Fragment → String → Progress → Outcome}
    {path : List ComponentId} {o : Occurrence} {x : FragmentNode} {p : Progress}
    (hx : x ∈ o.fragment.nodes) (hp : p.lookup sources.definitions = lookup)
    (hsettled : o.SettledIn sources.library p.graph)
    (hdescend : o.Opens lookup (o.child lookup x) → ∀ path' q,
      q.graph = p.graph → q.lookup sources.definitions = lookup →
      Unmoved sources.definitions q
        (descend path' (o.child lookup x).fragment (o.child lookup x).pre q).2) :
    Unmoved sources.definitions p (expandNode sources descend path o.pre x p).2 := by
  cases nodeCase lookup path x with
  | terminal ht =>
    rw [expandNode_terminal ht,
      addTerminal_settled (hsettled.terminals _ (Fragment.mem_terminals hx ht))]
    exact .refl p
  | other ht hr =>
    rw [expandNode_other ht hr]
    exact .refl p
  | loop hr hpath =>
    -- the run fails here, and a failure does not touch the graph before it is rolled back
    rw [expandNode_loop hr hpath]
    exact .refl p
  | missing hr hpath hd =>
    -- only the counters and the cache move
    rw [expandNode_missing hr hpath (hp ▸ hd)]
    exact (Unmoved.asked p _).trans (.miss _)
  | opened hr hpath hd =>
    rw [expandNode_opened hr hpath (hp ▸ hd), hp]
    have hopens : o.Opens lookup (o.child lookup x) := ⟨x, hx, hr, hd, rfl⟩
    exact (Unmoved.asked p _).trans
      (hdescend hopens _ _ (asked_graph ..) ((lookup_asked ..).trans hp))

/-- **An expansion of settled occurrences changes nothing**, whether it fails or not. The
induction is on the levels, for every graph in which the occurrences are settled. -/
theorem expand_unmoved (levels : Nat) :
    ∀ (path : List ComponentId) (o : Occurrence) (p : Progress),
      p.lookup sources.definitions = lookup →
      (∀ o', o.Reaches lookup o' → o'.SettledIn sources.library p.graph) →
      Unmoved sources.definitions p (expand sources levels path o.fragment o.pre p).2 := by
  induction levels with
  | zero => intro path o p _ _; exact .refl p
  | succ levels ih =>
    intro path o p hp hsettled
    have hself : o.Reaches lookup o := Relation.ReflTransGen.refl
    -- before each node the graph is still that of the start, in which everything is settled
    have hnode : ∀ x ∈ o.fragment.nodes, ∀ q, Unmoved sources.definitions p q →
        Unmoved sources.definitions q
          (expandNode sources (expand sources levels) path o.pre x q).2 := by
      intro x hx q hq
      refine expandNode_unmoved hx (hq.lookup.trans hp) (hq.graph ▸ hsettled o hself)
        fun hopens path' r hr hlook => ih path' _ r hlook fun o' ho' => ?_
      -- what the component reaches is reached from the fragment
      rw [hr, hq.graph]
      exact hsettled o' (.head hopens ho')
    have hends : Outcome.EachEnds (Unmoved sources.definitions)
        (expandNode sources (expand sources levels) path o.pre) o.fragment.nodes p
        (Outcome.each (expandNode sources (expand sources levels) path o.pre)
          o.fragment.nodes p) :=
      Outcome.each_ends Unmoved.refl Unmoved.trans hnode
    rw [expand_succ]
    generalize Outcome.each _ o.fragment.nodes p = outcome at hends
    cases hends with
    | failed _ _ _ _ hq' => exact hq'
    | @done q hq _ =>
      have hconnect : q.connect sources.library o.fragment o.pre = (.ok (), q) :=
        connect_settled (hq.graph ▸ hsettled o hself)
      simp only [Outcome.andThen, hconnect]
      exact hq

/-! ## Calls -/

/-- A session has cached nothing but what the store answers. -/
def Session.Faithful (s : Session) (sources : Sources) : Prop :=
  s.lookup sources = sources.definitions.answer

/-- A new session has cached nothing at all. -/
theorem Session.fresh_faithful (sources : Sources) : Session.fresh.Faithful sources :=
  Session.lookup_fresh sources

/-- A call leaves a faithful session faithful: what it caches is what the store has answered. -/
theorem Session.Faithful.resolve {s : Session} (h : s.Faithful sources) (g : Graph)
    (document : Tree) (pre : String) :
      (s.resolve sources g document pre).session.Faithful sources :=
  resolveWithin_lookup.trans h

/-- A call has succeeded, has added nothing and has left the graph as it was. -/
def Resolution.Unchanged (r : Resolution) (g : Graph) : Prop :=
  ∃ report, r.result = .ok report ∧ report.nodesAdded = 0 ∧ report.edgesAdded = 0 ∧ r.graph = g

section Calls

variable {s again : Session} {g : Graph} {document : Tree} {pre : String}

/-- Whether a call succeeds depends on the definitions that it works with, and not on the graph. The
only failure is a cycle, and cycles are found in the definitions. -/
theorem resolve_ok_of_ok (hcomplete : sources.definitions.Complete)
    (hlookup : again.lookup sources = s.lookup sources) {report : ResolveReport}
    (hok : (s.resolve sources g document pre).result = .ok report) (g' : Graph) :
    ∃ report', (again.resolve sources g' document pre).result = .ok report' := by
  have hfirst := resolveWithin_failsAtFirstLoop s hcomplete List.nodup_nil g document pre
  have hsecond := resolveWithin_failsAtFirstLoop again hcomplete List.nodup_nil g' document pre
  have hnoloop : ¬ ∃ e, (s.resolve sources g document pre).result = .error e := by
    rintro ⟨e, he⟩
    rw [hok] at he
    cases he
  -- both calls fail for a loop among the same definitions, or not at all
  rw [hlookup] at hsecond
  cases hresult : (again.resolve sources g' document pre).result with
  | ok report' => exact ⟨report', rfl⟩
  | error e => exact absurd (hfirst.fails_iff.mpr (hsecond.fails_iff.mp ⟨e, hresult⟩)) hnoloop

/-- A second call changes nothing, if the first one has not made a control subgraph usable.
Everything that the call asks for is there already, so each addition finds its name taken. -/
theorem resolve_again (hcomplete : sources.definitions.Complete)
    (hlib : sources.library.NamesTypes) (hlookup : again.lookup sources = s.lookup sources)
    {report : ResolveReport} (hok : (s.resolve sources g document pre).result = .ok report)
    (hnone : NoneMadeUsable sources.library
      (Occurrence.Reaches (s.lookup sources) ⟨Fragment.ofDocument document, pre⟩) g
      (s.resolve sources g document pre).graph) :
    (again.resolve sources (s.resolve sources g document pre).graph document pre).Unchanged
      (s.resolve sources g document pre).graph := by
  obtain ⟨p, hrun, -⟩ := resolveWithin_ok hok
  have hfirst : s.resolve sources g document pre =
      ⟨.ok p.report, p.graph, ⟨p.cache, s.fetches + p.fetches⟩⟩ := resolveWithin_of_run hrun
  obtain ⟨report', hok'⟩ := resolve_ok_of_ok hcomplete hlookup hok p.graph
  obtain ⟨p', hrun', -⟩ := resolveWithin_ok hok'
  have hsecond : again.resolve sources p.graph document pre =
      ⟨.ok p'.report, p'.graph, ⟨p'.cache, again.fetches + p'.fetches⟩⟩ :=
    resolveWithin_of_run hrun'
  rw [hfirst] at hnone ⊢
  have hsettled : ∀ o', Occurrence.Reaches (s.lookup sources)
      ⟨Fragment.ofDocument document, pre⟩ o' → o'.SettledIn sources.library p.graph :=
    fun o' ho' => expand_settles (o := ⟨Fragment.ofDocument document, pre⟩) hlib
      (p := { graph := g, cache := s.cache }) rfl hrun hnone ho'
  have hunmoved : Unmoved sources.definitions { graph := p.graph, cache := again.cache }
      (again.run sources [] p.graph (Fragment.ofDocument document) pre).2 :=
    expand_unmoved _ [] ⟨Fragment.ofDocument document, pre⟩
      { graph := p.graph, cache := again.cache } hlookup hsettled
  rw [hrun'] at hunmoved
  -- the journal of the second call is as empty as it was at its start
  refine ⟨p'.report, by rw [hsecond], ?_, ?_, ?_⟩
  · exact congrArg List.length hunmoved.addedNodes
  · exact congrArg List.length hunmoved.addedEdges
  · rw [hsecond]
    exact hunmoved.graph

/-- A call has registered the type of terminal nodes, and a control subgraph has the name of this
type. It could not be used before the call, and now the type is taken for it. -/
structure TerminalMistaken (library : SubgraphLibrary) (occurs : Occurrence → Prop) (g g' : Graph) :
    Prop where
  named : ∃ o, occurs o ∧ o.fragment.control = some terminalType
  before : ¬ g.CanUse library terminalType
  after : g'.hasNodeType terminalType = true

/-- A call makes no other control subgraph usable. -/
theorem noneMadeUsable_of_not_mistaken (hlib : sources.library.NamesTypes)
    {report : ResolveReport} (hok : (s.resolve sources g document pre).result = .ok report)
    (hnot : ¬ TerminalMistaken sources.library
      (Occurrence.Reaches (s.lookup sources) ⟨Fragment.ofDocument document, pre⟩) g
      (s.resolve sources g document pre).graph) :
    NoneMadeUsable sources.library
      (Occurrence.Reaches (s.lookup sources) ⟨Fragment.ofDocument document, pre⟩) g
      (s.resolve sources g document pre).graph := by
  intro o ho c hc huse
  rcases huse with htype | hload
  · obtain ⟨t, ht⟩ := (hasNodeType_iff _ _).mp htype
    obtain ⟨p, hrun, hgraph⟩ := resolveWithin_ok hok
    have hsteps := run_steps s sources [] g (Fragment.ofDocument document) pre
    rw [hrun] at hsteps
    have hgrown : GrownBy sources.library
        (Occurrence.Reaches (s.lookup sources) ⟨Fragment.ofDocument document, pre⟩) g p.graph :=
      GrownBy.steps hlib hsteps (.refl _ _ g)
    rw [show (s.resolve sources g document pre).graph = p.graph from hgraph] at ht
    -- a type that was not there is that of terminal nodes, or it has been loaded
    rcases hgrown.types c t ht with hold | ⟨hname, -⟩ | ⟨-, -, -, hload⟩
    · exact .inl ((hasNodeType_iff _ _).mpr ⟨t, hold⟩)
    · subst hname
      exact Classical.byContradiction fun hbefore => hnot ⟨⟨o, ho, hc⟩, hbefore, htype⟩
    · exact .inr ⟨t, hload⟩
  · exact .inr hload

/-- **Repeated calls settle.** Let a call with a faithful session succeed. Its session stays
faithful, and a second call with the same fragment and prefix, in this session or in any other
faithful one, succeeds too. It adds nothing and leaves the graph as it is, unless the type of
terminal nodes is now mistaken for a control subgraph. A third call adds nothing in any case. -/
theorem resolve_settles (s : Session) (sources : Sources) (hcomplete : sources.definitions.Complete)
    (hlib : sources.library.NamesTypes) (hs : s.Faithful sources) (g : Graph) (document : Tree)
    (pre : String) (report : ResolveReport)
    (hok : (s.resolve sources g document pre).result = .ok report) :
    let occurs := Occurrence.Reaches sources.definitions.answer ⟨Fragment.ofDocument document, pre⟩
    let first := s.resolve sources g document pre
    first.session.Faithful sources ∧ ∀ again : Session, again.Faithful sources →
      let second := again.resolve sources first.graph document pre
      (∃ report', second.result = .ok report') ∧
        (¬ TerminalMistaken sources.library occurs g first.graph →
          second.Unchanged first.graph) ∧
        ∀ third : Session, third.Faithful sources →
          (third.resolve sources second.graph document pre).Unchanged second.graph := by
  intro occurs first
  refine ⟨hs.resolve g document pre, fun again hagain => ?_⟩
  intro second
  have hlookup : again.lookup sources = s.lookup sources := hagain.trans hs.symm
  obtain ⟨report', hok'⟩ := resolve_ok_of_ok hcomplete hlookup hok first.graph
  have hsecond : ¬ TerminalMistaken sources.library occurs g first.graph →
      second.Unchanged first.graph := by
    intro hnot
    refine resolve_again hcomplete hlib hlookup hok (noneMadeUsable_of_not_mistaken hlib hok ?_)
    rw [show s.lookup sources = sources.definitions.answer from hs]
    exact hnot
  refine ⟨⟨report', hok'⟩, hsecond, fun third hthird => ?_⟩
  refine resolve_again hcomplete hlib (hthird.trans hagain.symm) hok'
    (noneMadeUsable_of_not_mistaken hlib hok' ?_)
  rw [show again.lookup sources = sources.definitions.answer from hagain]
  -- if the second call had registered the type, the first one would not have, and then the second
  -- one would have changed nothing
  intro hmistaken
  have hnot : ¬ TerminalMistaken sources.library occurs g first.graph :=
    fun h => hmistaken.before (.inl h.after)
  obtain ⟨-, -, -, -, hgraph⟩ := hsecond hnot
  have hafter : second.graph.hasNodeType terminalType = true := hmistaken.after
  rw [hgraph] at hafter
  exact hmistaken.before (.inl hafter)

end Calls

set_option maxRecDepth 10000 in
/-- A robot with two legs is resolved into a graph that knows terminal nodes. Doing it once more
changes nothing, in the same session and in one that has not fetched anything. -/
theorem twoLegs_settled :
    let g := Graph.empty.register NodeType.terminal
    let first := Session.fresh.resolve legSources g twoLegs "robot"
    first.result = .ok ⟨6, 2, 0, 1, 1⟩ ∧
      (first.session.resolve legSources first.graph twoLegs "robot").Unchanged first.graph ∧
      (Session.fresh.resolve legSources first.graph twoLegs "robot").Unchanged first.graph := by
  intro g first
  have hok : first.result = .ok ⟨6, 2, 0, 1, 1⟩ := eq_ok_of_toOption (by decide +kernel)
  have hlib : legSources.library.NamesTypes := SubgraphLibrary.ofDocuments_namesTypes _
  obtain ⟨hfaithful, hsettles⟩ := resolve_settles Session.fresh legSources
    (MemoryStore.source_complete _) hlib (Session.fresh_faithful _) g twoLegs "robot" _ hok
  -- the type of terminal nodes could be used before the call
  have hnot : ¬ TerminalMistaken legSources.library
      (Occurrence.Reaches legSources.definitions.answer ⟨Fragment.ofDocument twoLegs, "robot"⟩) g
      first.graph := fun h => h.before (.inl (by decide))
  exact ⟨hok, (hsettles first.session hfaithful).2.1 hnot,
    (hsettles Session.fresh (Session.fresh_faithful _)).2.1 hnot⟩

/-- An arm without actuators, whose control subgraph has the name of the type of terminal nodes, and
no library. -/
def bareSources : Sources where
  definitions := (MemoryStore.empty.insert (definitionId "arm")
    (componentDocument [] [("mechanicsData",
      .ofEntries [("data", .ofEntries [("bagel_control", .text terminalType)])])])).source
  library := .ofDocuments OrderedMap.empty

/-- A robot with this arm and a wheel behind it. -/
def bareArm : Tree := componentDocument [("left", "arm"), ("wheel", terminalModel)] []

set_option maxRecDepth 10000 in
/-- **A second call can add a node.** The first call adds the wheel and registers its type. The
second one takes this type for the control subgraph of the arm, in the same session and in one
that has not fetched anything. -/
theorem bareArm_resolved_twice :
    let first := Session.fresh.resolve bareSources Graph.empty bareArm ""
    let second := first.session.resolve bareSources first.graph bareArm ""
    let afresh := Session.fresh.resolve bareSources first.graph bareArm ""
    Graph.empty.WellFormed ∧ first.result = .ok ⟨1, 0, 0, 0, 1⟩ ∧
      second.result = .ok ⟨1, 0, 0, 1, 0⟩ ∧ afresh.result = .ok ⟨1, 0, 0, 0, 1⟩ ∧
      first.graph.nodes.map Node.name = ["wheel"] ∧
      second.graph.nodes.map Node.name = ["wheel", "left_OUTPUT"] ∧
      afresh.graph.nodes.map Node.name = ["wheel", "left_OUTPUT"] := by
  refine ⟨⟨by decide, by decide⟩, eq_ok_of_toOption ?_, eq_ok_of_toOption ?_,
    eq_ok_of_toOption ?_, ?_, ?_, ?_⟩ <;> decide +kernel

end ModelGraph
