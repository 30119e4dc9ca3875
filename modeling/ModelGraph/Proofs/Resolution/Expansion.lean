import ModelGraph.Proofs.Resolution.Run
import ModelGraph.Store.Memory

/-!
# Soundness and completeness of expansion

An expansion that succeeds puts into the graph what the occurrences of fragments call for, and
nothing else.

- **Completeness**: `RealizedIn` says what an occurrence calls for. Every occurrence that is reached
  is realized, by induction over the levels of the expansion.
- **Soundness**: `GrownBy` says where the nodes, edges and types of a graph come from. Every step
  keeps it.
- `resolveWithin_sound_complete`: both, for a call.
-/

namespace ModelGraph

open Progress ModelGraph.Graph

/-! ## Libraries -/

/-- The type of a subgraph has the name that it is made under. -/
theorem NodeType.name_of_ofSubgraph {name : String} {document : Tree} {t : NodeType}
    (h : NodeType.ofSubgraph name document = .ok t) : t.name = name := by
  unfold NodeType.ofSubgraph at h
  split at h
  · cases h
  · cases h
    rfl

/-- A library of documents loads types under their names. -/
theorem SubgraphLibrary.ofDocuments_namesTypes (documents : OrderedMap Tree) :
    (SubgraphLibrary.ofDocuments documents).NamesTypes := by
  intro name t h
  simp only [SubgraphLibrary.ofDocuments] at h
  split at h
  · exact NodeType.name_of_ofSubgraph h
  · cases h

/-- So does a library of files. -/
theorem SubgraphLibrary.ofDirectory_namesTypes (files : FileTree) (directory : String) :
    (SubgraphLibrary.ofDirectory files directory).NamesTypes := by
  intro name t h
  simp only [SubgraphLibrary.ofDirectory] at h
  split at h
  · split at h
    · exact NodeType.name_of_ofSubgraph h
    · cases h
  · cases h

/-- Nodes of a type can be made: the type is registered, or the library can load it. -/
def Graph.CanUse (g : Graph) (library : SubgraphLibrary) (control : String) : Prop :=
  g.hasNodeType control = true ∨ ∃ t, library.load control = .ok t

/-- What can be used in a graph can be used in one that has grown from it. -/
theorem Graph.Grows.canUse {g g' : Graph} (h : g.Grows g') {library : SubgraphLibrary}
    {control : String} (hc : g.CanUse library control) : g'.CanUse library control :=
  hc.imp_left (h.types control)

/-! ## Completeness -/

/-- What an occurrence calls for is in the graph: the nodes of its actuators and, if nodes of its
control subgraph can be made, the control node with its edges. -/
structure Occurrence.RealizedIn (o : Occurrence) (canUse : String → Prop) (g : Graph) : Prop where
  terminals : ∀ m ∈ o.fragment.terminals, g.hasNode (o.nodeName m) = true
  control : ∀ c, o.fragment.control = some c → canUse c → o.Connected c g

/-- A control node stays connected, since nothing is taken out of a graph that grows. -/
theorem Occurrence.Connected.mono {o : Occurrence} {c : String} {g g' : Graph}
    (h : o.Connected c g) (hg : g.Grows g') : o.Connected c g' := by
  obtain ⟨n, hn, hedges⟩ := h
  exact ⟨n, hg.node? hn, fun m hm hout => hg.hasEdge (hedges m hm hout)⟩

/-- What has been realized stays so. -/
theorem Occurrence.RealizedIn.mono {o : Occurrence} {canUse : String → Prop} {g g' : Graph}
    (h : o.RealizedIn canUse g) (hg : g.Grows g') : o.RealizedIn canUse g' :=
  ⟨fun m hm => hg.hasNode (h.terminals m hm), fun c hc huse => (h.control c hc huse).mono hg⟩

variable {sources : Sources} {lookup : ComponentId → Tree} {canUse : String → Prop}

/-- **Every occurrence that an expansion reaches is dealt with** when the expansion succeeds: at
some point its actuators are there and its control subgraph is connected. The induction is on the
levels: an occurrence is either the fragment itself, or it is reached from a component that one of
its nodes has opened. -/
theorem expand_visits (levels : Nat) :
    ∀ (path : List ComponentId) (o : Occurrence) (p p' : Progress),
      p.lookup sources.definitions = lookup →
      expand sources levels path o.fragment o.pre p = (.ok (), p') →
      ∀ o', o.Reaches lookup o' → ∃ q q', Steps sources (o.Reaches lookup) p q ∧
        (∀ m ∈ o'.fragment.terminals, q.graph.hasNode (o'.nodeName m) = true) ∧
        q.connect sources.library o'.fragment o'.pre = (.ok (), q') ∧
        Steps sources (o.Reaches lookup) q' p' := by
  induction levels with
  | zero =>
    intro path o p p' _ h
    cases h
  | succ levels ih =>
    intro path o p p' hp h o' hreach
    have hself : o.Reaches lookup o := Relation.ReflTransGen.refl
    have hends := expandNodes_ends (expand_steps levels) path o hp
    rw [expand_succ] at h
    generalize Outcome.each _ o.fragment.nodes p = outcome at hends h
    cases hends with
    | failed _ _ _ _ _ => cases h
    | @done q hsteps hall =>
      -- all nodes have been expanded, which leaves the control subgraph
      have hconnect : q.connect sources.library o.fragment o.pre = (.ok (), p') := h
      rcases hreach.cases_head with rfl | ⟨o₁, ⟨x, hx, hr, hd, rfl⟩, hreach'⟩
      · -- the fragment itself
        refine ⟨q, p', hsteps, fun m hm => ?_, hconnect, .refl p'⟩
        obtain ⟨x, hx, rfl⟩ := List.mem_map.mp hm
        obtain ⟨hmem, ht⟩ := List.mem_filter.mp hx
        obtain ⟨r, r', _, hstep, hr'⟩ := hall x hmem
        obtain ⟨r'', hadd, _, hnode⟩ := addTerminal_run sources r hself hm
        rw [expandNode_terminal ht, hadd] at hstep
        cases hstep
        exact hr'.grows.hasNode hnode
      · -- an occurrence inside the component that `x` opens
        obtain ⟨p'', hconnect', hsteps', -⟩ := connect_run sources q hself
        rw [hconnect] at hconnect'
        cases hconnect'
        obtain ⟨r, r', hrun, hstep, hr'⟩ := hall x hx
        have hlook : r.lookup sources.definitions = lookup := hrun.lookup_eq.trans hp
        obtain ⟨u, u', hu, hterminals, hcontrol, hu'⟩ := ih _ (o.child lookup x) _ _
          ((lookup_asked ..).trans hlook) (descend_of_expandNode_eq_ok hlook hr hd hstep) o' hreach'
        -- what the component reaches is reached through `x`
        have hopens : o.Opens lookup (o.child lookup x) := ⟨x, hx, hr, hd, rfl⟩
        have hmono : ∀ o₂, (o.child lookup x).Reaches lookup o₂ → o.Reaches lookup o₂ :=
          fun _ h₂ => .head hopens h₂
        have hask : Steps sources (o.Reaches lookup) r
            (r.asked sources.definitions (definitionId x.model)) := .single (.ask hself hx hr)
        exact ⟨u, u', (hrun.trans hask).trans (hu.mono hmono), hterminals, hcontrol,
          ((hu'.mono hmono).trans hr').trans hsteps'⟩

/-- Every occurrence that an expansion reaches is realized when the expansion succeeds. By induction
on the levels: what one node has realized stays realized, since later steps take nothing away. -/
theorem expand_realizes (hlib : sources.library.NamesTypes) (levels : Nat)
    (path : List ComponentId) (o : Occurrence) (p p' : Progress)
    (hp : p.lookup sources.definitions = lookup)
    (huse : ∀ c, canUse c → p.graph.CanUse sources.library c)
    (h : expand sources levels path o.fragment o.pre p = (.ok (), p')) (o' : Occurrence)
    (ho' : o.Reaches lookup o') : o'.RealizedIn canUse p'.graph := by
  obtain ⟨q, q', hsteps, hterminals, hconnect, hsteps'⟩ :=
    expand_visits levels path o p p' hp h o' ho'
  obtain ⟨q'', hconnect', hrun, hcontrol⟩ := connect_run sources q ho'
  -- both facts are about the same moment, when the occurrence's subgraph is connected
  rw [hconnect] at hconnect'
  cases hconnect'
  have hrealized : o'.RealizedIn canUse q'.graph :=
    ⟨fun m hm => hrun.grows.hasNode (hterminals m hm), fun c hc hcan =>
      (hcontrol hlib c hc (hsteps.grows.canUse (huse c hcan))).2⟩
  exact hrealized.mono hsteps'.grows

/-! ## Soundness -/

/-- A node that an expansion adds: the terminal node of an actuator, or the node of a control
subgraph, of the type that is registered under its name. -/
def IsAddedNode (occurs : Occurrence → Prop) (g : Graph) (n : Node) : Prop :=
  (∃ o m, occurs o ∧ m ∈ o.fragment.terminals ∧
      n = NodeType.terminal.instantiate (o.nodeName m)) ∨
    ∃ o c t, occurs o ∧ o.fragment.control = some c ∧ g.nodeType? c = some t ∧
      n = t.instantiate (o.controlName c)

/-- An edge that an expansion adds: it leads from an output of the control node of an occurrence to
the actuator of this occurrence that has the name of the output. -/
def IsAddedEdge (occurs : Occurrence → Prop) (g : Graph) (e : Edge) : Prop :=
  ∃ o c m n, occurs o ∧ o.fragment.control = some c ∧ m ∈ o.fragment.terminals ∧
    g.node? (o.controlName c) = some n ∧ m ∈ n.outputs.map Port.name ∧ e = o.edge c m

/-- A type that an expansion registers: that of terminal nodes, or one that the library loads for
the control subgraph of an occurrence. -/
def IsAddedType (library : SubgraphLibrary) (occurs : Occurrence → Prop) (name : String)
    (t : NodeType) : Prop :=
  name = terminalType ∧ t = NodeType.terminal ∨
    ∃ o, occurs o ∧ o.fragment.control = some name ∧ library.load name = .ok t

/-- Everything in a graph is either of an earlier graph or has been added for an occurrence. What
counts as added is read off the later graph, where the control nodes and their types stand that
edges and nodes go back to. -/
structure GrownBy (library : SubgraphLibrary) (occurs : Occurrence → Prop) (g g' : Graph) :
    Prop where
  nodes : ∀ n ∈ g'.nodes, n ∈ g.nodes ∨ IsAddedNode occurs g' n
  edges : ∀ e ∈ g'.edges, e ∈ g.edges ∨ IsAddedEdge occurs g' e
  types : ∀ name t, g'.nodeType? name = some t →
    g.nodeType? name = some t ∨ IsAddedType library occurs name t

variable {occurs : Occurrence → Prop} {g : Graph} {p p' : Progress}

/-- Nothing has been added to the graph itself. -/
theorem GrownBy.refl (library : SubgraphLibrary) (occurs : Occurrence → Prop) (g : Graph) :
    GrownBy library occurs g g :=
  ⟨fun _ hn => .inl hn, fun _ he => .inl he, fun _ _ ht => .inl ht⟩

/-- A registered type stays what it is. -/
theorem Progress.Step.nodeType?_eq_some (hlib : sources.library.NamesTypes)
    (h : Step sources occurs p p') {name : String} {t : NodeType}
    (ht : p.graph.nodeType? name = some t) : p'.graph.nodeType? name = some t := by
  have hhas : p.graph.hasNodeType name = true := (hasNodeType_iff _ _).mpr ⟨t, ht⟩
  cases h with
  | registerTerminal hnew =>
    have hne : name ≠ NodeType.terminal.name := by
      rintro rfl
      exact absurd hhas (by rw [show NodeType.terminal.name = terminalType from rfl, hnew]; simp)
    exact (nodeType?_register _ _ _).trans ((if_neg hne).trans ht)
  | @registerControl _ c t' _ _ hnew hload =>
    -- another type under the name would be replaced, but the library keeps to the name
    have hne : name ≠ t'.name := by
      rintro rfl
      rw [hlib c t' hload, hnew] at hhas
      cases hhas
    exact (nodeType?_register _ _ _).trans ((if_neg hne).trans ht)
  | ask _ _ _ =>
    rw [asked_graph]
    exact ht
  | _ => exact ht

/-- A node that has been added is one after the next step too. The type that it was made of is found
under its name as before. -/
private theorem IsAddedNode.step (hlib : sources.library.NamesTypes)
    (h : Step sources occurs p p') {n : Node} (hn : IsAddedNode occurs p.graph n) :
    IsAddedNode occurs p'.graph n := by
  rcases hn with hn | ⟨o, c, t, ho, hc, ht, hn⟩
  · exact .inl hn
  · exact .inr ⟨o, c, t, ho, hc, h.nodeType?_eq_some hlib ht, hn⟩

/-- An edge that has been added is one after the next step too. -/
private theorem IsAddedEdge.step (h : Step sources occurs p p') {e : Edge}
    (he : IsAddedEdge occurs p.graph e) : IsAddedEdge occurs p'.graph e := by
  obtain ⟨o, c, m, n, ho, hc, hm, hn, hout, he⟩ := he
  exact ⟨o, c, m, n, ho, hc, hm, h.grows.node? hn, hout, he⟩

/-- A step adds nothing but what its occurrence calls for. What has been added before is still
called for afterwards, and the step itself adds one node, edge or type at most. -/
theorem GrownBy.step (hlib : sources.library.NamesTypes) (h : Step sources occurs p p')
    (hp : GrownBy sources.library occurs g p.graph) :
    GrownBy sources.library occurs g p'.graph := by
  have hnodes : ∀ n ∈ p.graph.nodes, n ∈ g.nodes ∨ IsAddedNode occurs p'.graph n := fun n hn =>
    (hp.nodes n hn).imp_right fun hadded => hadded.step hlib h
  have hedges : ∀ e ∈ p.graph.edges, e ∈ g.edges ∨ IsAddedEdge occurs p'.graph e := fun e he =>
    (hp.edges e he).imp_right fun hadded => hadded.step h
  -- a type that is registered is found under its name, and all others as before
  have hregister : ∀ u : NodeType, IsAddedType sources.library occurs u.name u → ∀ name t,
      (p.graph.register u).nodeType? name = some t →
        g.nodeType? name = some t ∨ IsAddedType sources.library occurs name t := by
    intro u hu name t ht
    rw [nodeType?_register] at ht
    split at ht
    · rename_i hname
      cases ht
      exact .inr (hname ▸ hu)
    · exact hp.types name t ht
  cases h with
  | registerTerminal _ =>
    exact ⟨hnodes, hedges, hregister _ (.inl ⟨rfl, rfl⟩)⟩
  | registerControl ho hc _ hload =>
    have hname := hlib _ _ hload
    exact ⟨hnodes, hedges, hregister _ (.inr ⟨_, ho, hname ▸ hc, hname ▸ hload⟩)⟩
  | terminal ho hm _ =>
    refine ⟨fun n hn => ?_, hedges, hp.types⟩
    rcases List.mem_append.mp hn with hn | hn
    · exact hnodes n hn
    · exact .inr (.inl ⟨_, _, ho, hm, List.mem_singleton.mp hn⟩)
  | control ho hc ht _ =>
    refine ⟨fun n hn => ?_, hedges, hp.types⟩
    rcases List.mem_append.mp hn with hn | hn
    · exact hnodes n hn
    · exact .inr (.inr ⟨_, _, _, ho, hc, ht, List.mem_singleton.mp hn⟩)
  | edge ho hc hm hn hout _ =>
    refine ⟨hnodes, fun e he => ?_, hp.types⟩
    rcases List.mem_append.mp he with he | he
    · exact hedges e he
    · exact .inr ⟨_, _, _, _, ho, hc, hm, hn, hout, List.mem_singleton.mp he⟩
  | ask _ _ _ =>
    rw [asked_graph]
    exact hp
  | miss => exact hp

/-- A run adds nothing but what its occurrences call for. -/
theorem GrownBy.steps (hlib : sources.library.NamesTypes) (h : Steps sources occurs p p')
    (hp : GrownBy sources.library occurs g p.graph) :
    GrownBy sources.library occurs g p'.graph := by
  induction h with
  | refl => exact hp
  | tail _ hstep ih => exact ih.step hlib hstep

/-! ## Calls -/

/-- **A call that succeeds puts into the graph what the occurrences of fragments call for, and
nothing else.** Every occurrence has the nodes of its actuators and, if the type of its control
subgraph was registered before the call or can be loaded, its control node, each output of which is
joined to the actuator of the same name. Every node, edge and type that was not there before belongs
to an occurrence in this way. Libraries of documents and of files load types under the names that
they are asked for. -/
theorem resolveWithin_sound_complete (s : Session) (sources : Sources) (path : List ComponentId)
    (g : Graph) (document : Tree) (pre : String) (report : ResolveReport)
    (hlib : sources.library.NamesTypes)
    (hok : (s.resolveWithin sources path g document pre).result = .ok report) :
    let occurs := Occurrence.Reaches (s.lookup sources) ⟨Fragment.ofDocument document, pre⟩
    let final := (s.resolveWithin sources path g document pre).graph
    (∀ o, occurs o → o.RealizedIn (g.CanUse sources.library) final) ∧
      GrownBy sources.library occurs g final := by
  intro occurs final
  let o : Occurrence := ⟨Fragment.ofDocument document, pre⟩
  let start : Progress := { graph := g, cache := s.cache }
  have hlookup : start.lookup sources.definitions = s.lookup sources := rfl
  obtain ⟨p, hrun, hfinal⟩ := resolveWithin_ok hok
  have hsteps := run_steps s sources path g o.fragment o.pre
  have hrun' : expand sources (s.levels sources o.fragment) path o.fragment o.pre start =
      (.ok (), p) := hrun
  -- nothing has been added yet
  have hstart : GrownBy sources.library occurs g start.graph :=
    ⟨fun _ hn => .inl hn, fun _ he => .inl he, fun _ _ ht => .inl ht⟩
  rw [hrun] at hsteps
  constructor
  · intro o' ho'
    rw [show final = p.graph from hfinal]
    exact expand_realizes hlib _ path o start p hlookup (fun _ hc => hc) hrun' o' ho'
  · rw [show final = p.graph from hfinal]
    exact GrownBy.steps hlib hsteps hstart

/-! ## A robot with two legs -/

/-- The entry of a component document for a mechanics node. -/
def mechanicsEntry (name model : String) : Tree :=
  .ofEntries [("name", .text name),
    ("model", .ofEntries [("domain", .text mechanicsDomain), ("name", .text model)])]

/-- A component document with mechanics nodes, given by their names and models. -/
def componentDocument (nodes : List (String × String)) (rest : List (String × Tree)) : Tree :=
  .ofEntries (("nodes", .seq (nodes.map fun (name, model) => mechanicsEntry name model)) :: rest)

/-- A store with the definition of a leg, which has two actuators and a control subgraph, and a
library with this subgraph, which controls one of the actuators. -/
def legSources : Sources where
  definitions := (MemoryStore.empty.insert (definitionId "leg")
    (componentDocument [("hip", terminalModel), ("knee", terminalModel)]
      [("mechanicsData",
        .ofEntries [("data", .ofEntries [("bagel_control", .text "leg.yml")])])])).source
  library := .ofDocuments (.ofList [("leg.yml", .ofEntries [("nodes",
    .seq [.ofEntries [("name", .text "hip"), ("type", .text "OUTPUT")]])])])

/-- A robot with two legs. -/
def twoLegs : Tree := componentDocument [("left", "leg"), ("right", "leg")] []

set_option maxRecDepth 10000 in
/-- Both legs are expanded: six nodes and two edges are added, and the leg is fetched once. -/
theorem resolveWithin_twoLegs :
    (Session.fresh.resolveWithin legSources [] Graph.empty twoLegs "robot").result =
      .ok ⟨6, 2, 0, 1, 1⟩ := by
  have h : (Session.fresh.resolveWithin legSources [] Graph.empty twoLegs "robot").result.toOption =
      some ⟨6, 2, 0, 1, 1⟩ := by decide +kernel
  revert h
  cases (Session.fresh.resolveWithin legSources [] Graph.empty twoLegs "robot").result with
  | error e => simp [Except.toOption]
  | ok report => simp [Except.toOption]

/-- The graph of a robot with two legs is what its two legs call for. -/
theorem twoLegs_sound_complete :
    let occurs :=
      Occurrence.Reaches (Session.fresh.lookup legSources) ⟨Fragment.ofDocument twoLegs, "robot"⟩
    let final := (Session.fresh.resolveWithin legSources [] Graph.empty twoLegs "robot").graph
    (∀ o, occurs o → o.RealizedIn (Graph.empty.CanUse legSources.library) final) ∧
      GrownBy legSources.library occurs Graph.empty final :=
  resolveWithin_sound_complete Session.fresh legSources [] Graph.empty twoLegs "robot"
    ⟨6, 2, 0, 1, 1⟩ (SubgraphLibrary.ofDocuments_namesTypes _) resolveWithin_twoLegs

end ModelGraph
