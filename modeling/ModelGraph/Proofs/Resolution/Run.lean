import ModelGraph.Proofs.Except
import ModelGraph.Proofs.Resolution.Step

/-!
# Runs of an expansion

Every part of an expansion is a run of steps. Adding actuators, connecting the control subgraph and
joining its outputs never fail; only opening a component does.

- `addTerminal_run`, `connect_run`: what is added for one fragment.
- `NodeCase`: the five ways in which a node of a fragment is dealt with.
- `expand_steps`: an expansion is a run of steps.
-/

namespace ModelGraph

open Progress

variable (sources : Sources) {occurs : Occurrence → Prop} (p : Progress)

/-! ## Actuators -/

/-- An actuator is added without fail, and its node is there afterwards. Whether a node has the name
already is looked up first, so adding the node is never refused. -/
theorem addTerminal_run {o : Occurrence} {m : String} (ho : occurs o)
    (hm : m ∈ o.fragment.terminals) :
    ∃ p', p.addTerminal (o.nodeName m) = (.ok (), p') ∧ Steps sources occurs p p' ∧
      p'.graph.hasNode (o.nodeName m) = true := by
  unfold addTerminal
  cases hnode : p.graph.hasNode (o.nodeName m) with
  | true => exact ⟨p, rfl, .refl p, hnode⟩
  | false =>
    have hadded : ∀ q : Progress,
        (q.withNode (NodeType.terminal.instantiate (o.nodeName m))).graph.hasNode (o.nodeName m) =
          true := fun q =>
      (Graph.hasNode_iff _ _).mpr ⟨_, List.mem_append_right _ List.mem_cons_self, rfl⟩
    cases htype : p.graph.hasNodeType terminalType with
    | true =>
      exact ⟨_, addNode_of_new hnode, .single (.terminal ho hm hnode), hadded p⟩
    | false =>
      -- registering the type does not add a node
      have hnode' : (p.register NodeType.terminal).graph.hasNode (o.nodeName m) = false := hnode
      exact ⟨_, addNode_of_new hnode', .trans (.single (.registerTerminal htype))
        (.single (.terminal ho hm hnode')), hadded _⟩

/-! ## Control -/

/-- The control node of an occurrence is there, and each of its outputs is joined to the actuator of
the same name. -/
def Occurrence.Connected (o : Occurrence) (control : String) (g : Graph) : Prop :=
  ∃ n, g.node? (o.controlName control) = some n ∧
    ∀ m ∈ o.fragment.terminals, m ∈ n.outputs.map Port.name → g.hasEdge (o.edge control m) = true

/-- A library that loads types under the names that it is asked for. -/
def SubgraphLibrary.NamesTypes (library : SubgraphLibrary) : Prop :=
  ∀ name t, library.load name = .ok t → t.name = name

/-- One output is joined to its actuator without fail, where the subgraph has such an output.
Without such an output nothing happens. -/
private theorem joinTerminal_run {o : Occurrence} {c m : String} {n : Node} (ho : occurs o)
    (hc : o.fragment.control = some c) (hm : m ∈ o.fragment.terminals)
    (hn : p.graph.node? (o.controlName c) = some n) :
    ∃ p', joinTerminal (o.controlName c) o.pre (n.outputs.map Port.name) m p = (.ok (), p') ∧
      Steps sources occurs p p' ∧
      (m ∈ n.outputs.map Port.name → p'.graph.hasEdge (o.edge c m) = true) := by
  have hfold : joinTerminal (o.controlName c) o.pre (n.outputs.map Port.name) m p =
      if (n.outputs.map Port.name).contains m && !p.graph.hasEdge (o.edge c m) then
        p.addEdge (o.edge c m) else (.ok (), p) := rfl
  rw [hfold]
  -- an edge is added only to an output that the control subgraph has
  by_cases hout : m ∈ n.outputs.map Port.name
  · rw [List.contains_iff_mem.mpr hout]
    cases hedge : p.graph.hasEdge (o.edge c m) with
    | true => exact ⟨p, rfl, .refl p, fun _ => hedge⟩
    | false =>
      refine ⟨_, addEdge_of_new hedge, .single (.edge ho hc hm hn hout hedge), fun _ => ?_⟩
      exact (Graph.hasEdge_iff _ _).mpr ⟨_, List.mem_append_right _ List.mem_cons_self, rfl⟩
  · have hno : (n.outputs.map Port.name).contains m = false := by
      rw [← Bool.not_eq_true, List.contains_iff_mem]
      exact hout
    rw [hno]
    exact ⟨p, rfl, .refl p, fun h => absurd h hout⟩

/-- The outputs of a control node are joined to the actuators without fail. -/
theorem joinControl_run {o : Occurrence} {c : String} (ho : occurs o)
    (hc : o.fragment.control = some c) :
    ∃ p', p.joinControl (o.controlName c) o.pre o.fragment.terminals = (.ok (), p') ∧
      Steps sources occurs p p' ∧
      (p.graph.hasNode (o.controlName c) = true → o.Connected c p'.graph) := by
  unfold joinControl
  cases hn : p.graph.node? (o.controlName c) with
  | none => exact ⟨p, rfl, .refl p, fun h => by simp [Graph.hasNode, hn] at h⟩
  | some n =>
    have hstep : ∀ m ∈ o.fragment.terminals, ∀ q, Steps sources occurs p q →
        ∃ q', joinTerminal (o.controlName c) o.pre (n.outputs.map Port.name) m q = (.ok (), q') ∧
          Steps sources occurs q q' ∧
          (m ∈ n.outputs.map Port.name → q'.graph.hasEdge (o.edge c m) = true) :=
      fun m hm q hq => joinTerminal_run sources q ho hc hm (hq.grows.node? hn)
    have hends : Outcome.EachEnds (Steps sources occurs)
        (joinTerminal (o.controlName c) o.pre (n.outputs.map Port.name)) o.fragment.terminals p
        (Outcome.each (joinTerminal (o.controlName c) o.pre (n.outputs.map Port.name))
          o.fragment.terminals p) :=
      Outcome.each_ends Steps.refl Steps.trans fun m hm q hq => by
        obtain ⟨q', hjoin, hsteps, -⟩ := hstep m hm q hq
        rw [hjoin]
        exact hsteps
    simp only
    generalize Outcome.each _ o.fragment.terminals p = outcome at hends
    cases hends with
    | done hp hall =>
      -- nothing that is added later takes an edge away again
      refine ⟨_, rfl, hp, fun _ => ⟨n, hp.grows.node? hn, fun m hm hout => ?_⟩⟩
      obtain ⟨q, q', hq, hjoin, hq'⟩ := hall m hm
      obtain ⟨q'', hjoin', -, hedge⟩ := hstep m hm q hq
      rw [hjoin] at hjoin'
      cases hjoin'
      exact hq'.grows.hasEdge (hedge hout)
    | @failed _ _ m q _ _ hl _ hq hfail _ =>
      -- no actuator fails to be joined
      have hm : m ∈ o.fragment.terminals := by
        rw [hl]
        simp
      obtain ⟨q'', hjoin, -⟩ := hstep m hm q hq
      rw [hfail] at hjoin
      cases hjoin

/-- The node of a control subgraph is added without fail. If its type is not registered, no node is
made, and this is no failure either. -/
theorem addControl_run {o : Occurrence} {c : String} (ho : occurs o)
    (hc : o.fragment.control = some c) :
    ∃ p', p.addControl c (o.controlName c) = (.ok (), p') ∧ Steps sources occurs p p' ∧
      (p.graph.hasNodeType c = true → p'.graph.hasNode (o.controlName c) = true) := by
  unfold addControl
  cases hnode : p.graph.hasNode (o.controlName c) with
  | true => exact ⟨p, rfl, .refl p, fun _ => hnode⟩
  | false =>
    -- without a registered type there is nothing to make a node of
    cases htype : p.graph.nodeType? c with
    | none => exact ⟨p, rfl, .refl p, fun h => by simp [Graph.hasNodeType, htype] at h⟩
    | some t =>
      refine ⟨_, addNode_of_new (n := t.instantiate (o.controlName c)) hnode,
        .single (.control ho hc htype hnode), fun _ => ?_⟩
      exact (Graph.hasNode_iff _ _).mpr ⟨_, List.mem_append_right _ List.mem_cons_self, rfl⟩

/-- Loading the type of a control subgraph is a run of steps, after which the type is registered if
the library is asked for it by its name. -/
theorem loadControl_run {o : Occurrence} {c : String} (ho : occurs o)
    (hc : o.fragment.control = some c) :
    (p.loadControl sources.library c = none ∧ p.graph.hasNodeType c = false ∧
        ∀ t, sources.library.load c ≠ .ok t) ∨
      ∃ p', p.loadControl sources.library c = some p' ∧ Steps sources occurs p p' ∧
        (sources.library.NamesTypes → p'.graph.hasNodeType c = true) := by
  unfold loadControl
  cases htype : p.graph.hasNodeType c with
  | true => exact .inr ⟨p, rfl, .refl p, fun _ => htype⟩
  | false =>
    cases hload : sources.library.load c with
    | error e => exact .inl ⟨rfl, rfl, by simp⟩
    | ok t =>
      refine .inr ⟨p.register t, rfl, .single (.registerControl ho hc htype hload), fun hlib => ?_⟩
      -- only a type of this name can be found afterwards under the name
      have hname : (p.graph.register t).nodeType? c = some t := by
        rw [Graph.nodeType?_register, hlib c t hload]
        simp
      exact (Graph.hasNodeType_iff _ _).mpr ⟨t, hname⟩

/-- The control subgraph of an occurrence is connected without fail. Its type is registered and it
is there afterwards, if the type is registered before or can be loaded. Nothing is connected for a
subgraph that can neither be found nor loaded, which is no failure either. -/
theorem connect_run {o : Occurrence} (ho : occurs o) :
    ∃ p', p.connect sources.library o.fragment o.pre = (.ok (), p') ∧ Steps sources occurs p p' ∧
      (sources.library.NamesTypes → ∀ c, o.fragment.control = some c →
        (p.graph.hasNodeType c = true ∨ ∃ t, sources.library.load c = .ok t) →
        p'.graph.hasNodeType c = true ∧ o.Connected c p'.graph) := by
  unfold connect
  cases hc : o.fragment.control with
  | none => exact ⟨p, rfl, .refl p, by simp⟩
  | some c =>
    simp only [connectControl]
    rcases loadControl_run sources p ho hc with ⟨hnone, htype, hload⟩ | ⟨p₁, hsome, hsteps₁, hreg⟩
    · -- the subgraph cannot be used, so there is nothing to connect
      rw [hnone]
      refine ⟨p, rfl, .refl p, fun _ c' hc' havail => ?_⟩
      cases hc'
      rcases havail with h | ⟨t, ht⟩
      · rw [htype] at h
        cases h
      · exact absurd ht (hload t)
    · obtain ⟨p₂, hadd, hsteps₂, hnode⟩ := addControl_run sources p₁ ho hc
      obtain ⟨p₃, hjoin, hsteps₃, hconnected⟩ := joinControl_run sources p₂ ho hc
      rw [hsome]
      have hrun : (p₁.addControl c (o.controlName c)).andThen
          (fun p => p.joinControl (o.controlName c) o.pre o.fragment.terminals) = (.ok (), p₃) := by
        rw [hadd]
        exact hjoin
      refine ⟨p₃, hrun, (hsteps₁.trans hsteps₂).trans hsteps₃, fun hlib c' hc' _ => ?_⟩
      cases hc'
      -- the type that has been registered stays registered
      exact ⟨(hsteps₂.trans hsteps₃).grows.types c (hreg hlib), hconnected (hnode (hreg hlib))⟩

/-! ## Nodes -/

/-- How a node of a fragment is dealt with inside the components of a path. Proofs about expansions
go by these cases and take what is done in each of them from the equations below, so none of them
unfolds the expansion of a node. -/
inductive NodeCase (lookup : ComponentId → Tree) (path : List ComponentId) (x : FragmentNode) :
    Prop where
  /-- The node is an actuator. -/
  | terminal (hx : x.isTerminal = true)
  /-- The node is of no concern. -/
  | other (hx : x.isTerminal = false) (hr : x.isReference = false)
  /-- The node refers to a component of the path. -/
  | loop (hr : x.isReference = true) (hpath : definitionId x.model ∈ path)
  /-- The node refers to a component that is missing. -/
  | missing (hr : x.isReference = true) (hpath : definitionId x.model ∉ path)
      (hd : (lookup (definitionId x.model)).isEmpty = true)
  /-- The node refers to a component that is opened. -/
  | opened (hr : x.isReference = true) (hpath : definitionId x.model ∉ path)
      (hd : (lookup (definitionId x.model)).isEmpty = false)

/-- Every node is dealt with in one of these ways. The cases test in the order in which the
expansion does, so each of the equations below holds in exactly one of them. -/
theorem nodeCase (lookup : ComponentId → Tree) (path : List ComponentId) (x : FragmentNode) :
    NodeCase lookup path x := by
  cases hx : x.isTerminal with
  | true => exact .terminal hx
  | false =>
    cases hr : x.isReference with
    | false => exact .other hx hr
    | true =>
      -- a reference that is open already is a loop, whatever its definition says
      by_cases hpath : definitionId x.model ∈ path
      · exact .loop hr hpath
      · cases hd : (lookup (definitionId x.model)).isEmpty with
        | true => exact .missing hr hpath hd
        | false => exact .opened hr hpath hd

/-- A node that refers to a component is no actuator. -/
theorem FragmentNode.isTerminal_of_isReference {x : FragmentNode} (hr : x.isReference = true) :
    x.isTerminal = false := by
  simp only [isReference, isTerminal, Bool.and_eq_true, bne_iff_ne, ne_eq] at hr ⊢
  simp [hr.2]

section ExpandNode

variable {sources : Sources} {p : Progress}
  {descend : List ComponentId → Fragment → String → Progress → Outcome} {path : List ComponentId}
  {o : Occurrence} {x : FragmentNode}

/-- An actuator is added. -/
theorem expandNode_terminal (hx : x.isTerminal = true) :
    expandNode sources descend path o.pre x p = p.addTerminal (o.nodeName x.name) := by
  simp only [expandNode, expandNodeWith, hx, if_true]
  rfl

/-- A node that is of no concern is passed over. -/
theorem expandNode_other (hx : x.isTerminal = false) (hr : x.isReference = false) :
    expandNode sources descend path o.pre x p = (.ok (), p) := by
  simp [expandNode, expandNodeWith, hx, hr]

/-- A component of the path is not opened again: the expansion fails with the
cycle that it closes. -/
theorem expandNode_loop (hr : x.isReference = true) (hpath : definitionId x.model ∈ path) :
    expandNode sources descend path o.pre x p =
      (.error (.cycle (path ++ [definitionId x.model])), p) := by
  simp [expandNode, expandNodeWith, FragmentNode.isTerminal_of_isReference hr, hr, hpath]

/-- A component that is missing is noted as such. -/
theorem expandNode_missing (hr : x.isReference = true) (hpath : definitionId x.model ∉ path)
    (hd : (p.lookup sources.definitions (definitionId x.model)).isEmpty = true) :
    expandNode sources descend path o.pre x p =
      (.ok (), (p.asked sources.definitions (definitionId x.model)).miss) := by
  simp [expandNode, expandNodeWith, FragmentNode.isTerminal_of_isReference hr, hr, hpath,
    ask_cached, hd]

/-- A component that is there is expanded under the name of the node, with one more component on the
path. -/
theorem expandNode_opened (hr : x.isReference = true) (hpath : definitionId x.model ∉ path)
    (hd : (p.lookup sources.definitions (definitionId x.model)).isEmpty = false) :
    expandNode sources descend path o.pre x p =
      descend (path ++ [definitionId x.model])
        (o.child (p.lookup sources.definitions) x).fragment
        (o.child (p.lookup sources.definitions) x).pre
        (p.asked sources.definitions (definitionId x.model)) := by
  simp [expandNode, expandNodeWith, FragmentNode.isTerminal_of_isReference hr, hr, hpath,
    ask_cached, hd, Occurrence.child, Occurrence.nodeName]

/-- A node that refers to a definition which is there opens it, unless it fails. -/
theorem descend_of_expandNode_eq_ok {lookup : ComponentId → Tree} {p' : Progress}
    (hp : p.lookup sources.definitions = lookup) (hr : x.isReference = true)
    (hd : (lookup (definitionId x.model)).isEmpty = false)
    (h : expandNode sources descend path o.pre x p = (.ok (), p')) :
    descend (path ++ [definitionId x.model]) (o.child lookup x).fragment (o.child lookup x).pre
      (p.asked sources.definitions (definitionId x.model)) = (.ok (), p') := by
  subst hp
  -- a component of the path would have failed, so this one is opened
  by_cases hpath : definitionId x.model ∈ path
  · rw [expandNode_loop hr hpath] at h
    cases h
  · rw [expandNode_opened hr hpath hd] at h
    exact h

end ExpandNode

/-- A node that is an actuator has its name among those of the actuators. -/
theorem Fragment.mem_terminals {f : Fragment} {x : FragmentNode} (hx : x ∈ f.nodes)
    (ht : x.isTerminal = true) : x.name ∈ f.terminals :=
  List.mem_map_of_mem (List.mem_filter.mpr ⟨hx, ht⟩)

/-! ## Fragments -/

variable {sources : Sources} {lookup : ComponentId → Tree} {p : Progress}

/-- A node of a fragment is expanded in a run of steps, if fragments of definitions are. -/
theorem expandNode_steps {descend : List ComponentId → Fragment → String → Progress → Outcome}
    (hdescend : ∀ path (o : Occurrence) p, p.lookup sources.definitions = lookup →
      Steps sources (o.Reaches lookup) p (descend path o.fragment o.pre p).2)
    {path : List ComponentId} {o : Occurrence} {x : FragmentNode} (hx : x ∈ o.fragment.nodes)
    (hp : p.lookup sources.definitions = lookup) :
    Steps sources (o.Reaches lookup) p (expandNode sources descend path o.pre x p).2 := by
  have hself : o.Reaches lookup o := Relation.ReflTransGen.refl
  cases nodeCase lookup path x with
  | terminal ht =>
    rw [expandNode_terminal ht]
    obtain ⟨p', hadd, hsteps, -⟩ :=
      addTerminal_run sources p hself (Fragment.mem_terminals hx ht)
    rw [hadd]
    exact hsteps
  | other ht hr =>
    rw [expandNode_other ht hr]
    exact .refl p
  | loop hr hpath =>
    rw [expandNode_loop hr hpath]
    exact .refl p
  | missing hr hpath hd =>
    rw [expandNode_missing hr hpath (hp ▸ hd)]
    exact .trans (.single (.ask hself hx hr)) (.single .miss)
  | opened hr hpath hd =>
    rw [expandNode_opened hr hpath (hp ▸ hd), hp]
    have hasked : (p.asked sources.definitions (definitionId x.model)).lookup
        sources.definitions = lookup := by rw [lookup_asked, hp]
    -- what the component reaches is reached through `x`
    have hopens : o.Opens lookup (o.child lookup x) := ⟨x, hx, hr, hd, rfl⟩
    exact .trans (.single (.ask hself hx hr))
      ((hdescend _ (o.child lookup x) _ hasked).mono fun _ h => .head hopens h)

/-- The nodes of a fragment are expanded in a run of steps up to the first one that fails. -/
theorem expandNodes_ends {descend : List ComponentId → Fragment → String → Progress → Outcome}
    (hdescend : ∀ path (o : Occurrence) p, p.lookup sources.definitions = lookup →
      Steps sources (o.Reaches lookup) p (descend path o.fragment o.pre p).2)
    (path : List ComponentId) (o : Occurrence) (hp : p.lookup sources.definitions = lookup) :
    Outcome.EachEnds (Steps sources (o.Reaches lookup))
      (expandNode sources descend path o.pre) o.fragment.nodes p
      (Outcome.each (expandNode sources descend path o.pre) o.fragment.nodes p) :=
  Outcome.each_ends Steps.refl Steps.trans fun _ hx _ hq =>
    expandNode_steps hdescend hx (hq.lookup_eq.trans hp)

/-- **An expansion is a run of steps** for the occurrences that it reaches, whether it fails or
not. -/
theorem expand_steps (levels : Nat) :
    ∀ (path : List ComponentId) (o : Occurrence) (p : Progress),
      p.lookup sources.definitions = lookup →
      Steps sources (o.Reaches lookup) p (expand sources levels path o.fragment o.pre p).2 := by
  induction levels with
  | zero => intro path o p _; exact .refl p
  | succ levels ih =>
    intro path o p hp
    have hends := expandNodes_ends ih path o hp
    rw [expand_succ]
    generalize Outcome.each _ o.fragment.nodes p = outcome at hends
    cases hends with
    | failed _ _ _ _ hq' => exact hq'
    | @done q hsteps _ =>
      have hself : o.Reaches lookup o := Relation.ReflTransGen.refl
      -- connecting the control subgraph does not fail, so the run goes on to its end
      obtain ⟨p', hconnect, hsteps', -⟩ := connect_run sources q hself
      simp only [Outcome.andThen, hconnect]
      exact hsteps.trans hsteps'

/-! ## Calls -/

section Calls

variable {s : Session} {path : List ComponentId} {g : Graph} {document : Tree} {pre : String}

/-- The expansion of a call is a run of steps. -/
theorem run_steps (s : Session) (sources : Sources) (path : List ComponentId) (g : Graph)
    (f : Fragment) (pre : String) :
    Steps sources (Occurrence.Reaches (s.lookup sources) ⟨f, pre⟩)
      { graph := g, cache := s.cache } (s.run sources path g f pre).2 :=
  expand_steps (s.levels sources f) path ⟨f, pre⟩ { graph := g, cache := s.cache } rfl

/-- A call that succeeds keeps the graph of its expansion. -/
theorem resolveWithin_ok {report : ResolveReport}
    (h : (s.resolveWithin sources path g document pre).result = .ok report) :
    ∃ p, s.run sources path g (Fragment.ofDocument document) pre = (.ok (), p) ∧
      (s.resolveWithin sources path g document pre).graph = p.graph := by
  unfold Session.resolveWithin at h ⊢
  rcases hrun : s.run sources path g (Fragment.ofDocument document) pre with ⟨_ | _, p⟩
  · rw [hrun] at h
    cases h
  · exact ⟨p, rfl, rfl⟩

/-- A call whose expansion succeeds reports it and keeps its graph. -/
theorem resolveWithin_of_run {p : Progress}
    (h : s.run sources path g (Fragment.ofDocument document) pre = (.ok (), p)) :
    s.resolveWithin sources path g document pre =
      ⟨.ok p.report, p.graph, ⟨p.cache, s.fetches + p.fetches⟩⟩ := by
  rw [Session.resolveWithin, h]

/-- A call whose expansion fails tells why, and takes back what has been added. -/
theorem resolveWithin_of_failure {e : ResolveError} {p : Progress}
    (h : s.run sources path g (Fragment.ofDocument document) pre = (.error e, p)) :
    s.resolveWithin sources path g document pre =
      ⟨.error e, p.rollBack, ⟨p.cache, s.fetches + p.fetches⟩⟩ := by
  rw [Session.resolveWithin, h]

/-- A call fails with the error of its expansion. -/
theorem resolveWithin_error {e : ResolveError} :
    (s.resolveWithin sources path g document pre).result = .error e ↔
      (s.run sources path g (Fragment.ofDocument document) pre).1 = .error e := by
  unfold Session.resolveWithin
  rcases s.run sources path g (Fragment.ofDocument document) pre with ⟨_ | _, p⟩ <;> simp

/-- A call does not change what a session works with, so in a session that started without anything
in its cache this is what the store answers. -/
theorem resolveWithin_lookup :
    (s.resolveWithin sources path g document pre).session.lookup sources = s.lookup sources := by
  have hlookup : (s.run sources path g (Fragment.ofDocument document) pre).2.lookup
      sources.definitions = s.lookup sources :=
    (run_steps s sources path g (Fragment.ofDocument document) pre).lookup_eq
  unfold Session.resolveWithin
  rcases hrun : s.run sources path g (Fragment.ofDocument document) pre with ⟨_ | _, p⟩ <;>
    rw [hrun] at hlookup <;> exact hlookup

end Calls

end ModelGraph
