import ModelGraph.Proofs.Resolution.Expansion
import ModelGraph.Proofs.Resolution.FlatName

/-!
# Actuators in the flat graph

A chain of instance names leads from a fragment to an actuator, and the node that stands for the
actuator has the flat name of the chain. An actuator does not get a node of its own if there is a
node with its name already: one of an actuator with the same flat name, or of a control subgraph
with it. Where names have no underscores there is no such node.

- `ReachesBy`, `HasActuator`: chains of instance names, and the actuators that they lead to.
- `NodesFrom`: where the nodes of a later graph come from. Every step keeps it.
- `expand_stands`: the node of each actuator when an expansion has succeeded.
- `actuators_flattened`: the same for calls, and which actuators share a node.
- `clashingRobot_merged`: three actuators with two nodes, one of them of another type.
-/

namespace ModelGraph

open Progress

/-! ## Chains of instances -/

namespace Occurrence

variable {lookup : ComponentId → Tree} {o o' : Occurrence} {names : List String}

/-- A chain of instance names leads from one occurrence to another one inside of it. -/
inductive ReachesBy (lookup : ComponentId → Tree) :
    Occurrence → List String → Occurrence → Prop where
  | refl (o : Occurrence) : ReachesBy lookup o [] o
  | head {o o' : Occurrence} {x : FragmentNode} {names : List String} (hx : x ∈ o.fragment.nodes)
      (hr : x.isReference = true) (hd : (lookup (definitionId x.model)).isEmpty = false)
      (hrest : ReachesBy lookup (o.child lookup x) names o') :
      ReachesBy lookup o (x.name :: names) o'

/-- The chain is in the prefix. -/
theorem ReachesBy.pre_eq (h : ReachesBy lookup o names o') : o'.pre = flatName o.pre names := by
  induction h with
  | refl o => rfl
  | head _ _ _ _ ih => exact ih

/-- What a chain of names leads to is reached. -/
theorem ReachesBy.reaches (h : ReachesBy lookup o names o') : o.Reaches lookup o' := by
  induction h with
  | refl o => exact .refl
  | @head _ _ x _ hx hr hd _ ih => exact .head ⟨x, hx, hr, hd, rfl⟩ ih

/-- Some chain of names leads to whatever is reached. -/
theorem Reaches.exists_names (h : o.Reaches lookup o') : ∃ names, ReachesBy lookup o names o' := by
  induction h using Relation.ReflTransGen.head_induction_on with
  | refl => exact ⟨[], .refl _⟩
  | head hopens _ ih =>
    obtain ⟨x, hx, hr, hd, rfl⟩ := hopens
    obtain ⟨names, hrest⟩ := ih
    exact ⟨x.name :: names, .head hx hr hd hrest⟩

/-- Some fragments that refer to nothing but themselves are all that is reached from them. -/
theorem Reaches.fragment_mem {fragments : List Fragment}
    (hclosed : ∀ f ∈ fragments, ∀ x ∈ f.nodes, x.isReference = true →
      Fragment.ofDocument (lookup (definitionId x.model)) ∈ fragments)
    (ho : o.fragment ∈ fragments) (h : o.Reaches lookup o') : o'.fragment ∈ fragments := by
  induction h with
  | refl => exact ho
  | tail _ hopens ih =>
    obtain ⟨x, hx, hr, -, rfl⟩ := hopens
    exact hclosed _ ih x hx hr

/-- A chain of instance names leads from an occurrence to an actuator. -/
def HasActuator (lookup : ComponentId → Tree) (o : Occurrence) (chain : List String) : Prop :=
  ∃ names o' m, ReachesBy lookup o names o' ∧ m ∈ o'.fragment.terminals ∧ chain = names ++ [m]

/-- The control subgraph of an occurrence that an actuator is not inside has the flat name of the
actuator. -/
def ControlClash (lookup : ComponentId → Tree) (o : Occurrence) (chain : List String) : Prop :=
  ∃ names o' c, ReachesBy lookup o names o' ∧ o'.fragment.control = some c ∧ ¬ names <+: chain ∧
    o'.controlName c = flatName o.pre chain

end Occurrence

/-! ## Where nodes come from -/

/-- Every node of a later graph was there before, or it is a terminal node, or it is the node of the
control subgraph of one of some occurrences. This says less of a graph than `GrownBy` and more of a
part of an expansion: `controls` are the occurrences inside the nodes that have been expanded so
far. -/
def NodesFrom (controls : Occurrence → Prop) (g g' : Graph) : Prop :=
  ∀ name n, g'.node? name = some n → g.node? name = some n ∨
    n = NodeType.terminal.instantiate name ∨
    ∃ o c, controls o ∧ o.fragment.control = some c ∧ o.controlName c = name

namespace NodesFrom

variable {controls controls' : Occurrence → Prop} {g g' g'' : Graph}

/-- Nothing has been added to the graph itself. -/
theorem refl (g : Graph) : NodesFrom controls g g := fun _ _ hn => .inl hn

/-- Nodes that come from a graph in between come from the first one, or have been added after it. -/
theorem trans (h : NodesFrom controls g g') (h' : NodesFrom controls g' g'') :
    NodesFrom controls g g'' := by
  intro name n hn
  rcases h' name n hn with hn | hn
  · exact h name n hn
  · exact .inr hn

/-- More control nodes may have been added. -/
theorem mono (hsub : ∀ o, controls o → controls' o) (h : NodesFrom controls g g') :
    NodesFrom controls' g g' := by
  intro name n hn
  rcases h name n hn with hn | hn | ⟨o, c, ho, hc⟩
  · exact .inl hn
  · exact .inr (.inl hn)
  · exact .inr (.inr ⟨o, c, hsub o ho, hc⟩)

/-- With one more node at the end. -/
theorem of_append {m : Node} (hnodes : g'.nodes = g.nodes ++ [m])
    (hm : m = NodeType.terminal.instantiate m.name ∨
      ∃ o c, controls o ∧ o.fragment.control = some c ∧ o.controlName c = m.name) :
    NodesFrom controls g g' := by
  intro name n hn
  rw [Graph.node?, hnodes, List.find?_append, Option.or_eq_some_iff] at hn
  rcases hn with hn | ⟨-, hn⟩
  · exact .inl hn
  · obtain rfl : n = m := List.mem_singleton.mp (List.mem_of_find?_eq_some hn)
    obtain rfl : n.name = name := by simpa using List.find?_some hn
    exact .inr hm

/-- Where no node is added. -/
theorem of_eq (hnodes : g'.nodes = g.nodes) : NodesFrom controls g g' := by
  intro name n hn
  rw [Graph.node?, hnodes] at hn
  exact .inl hn

end NodesFrom

namespace Progress

variable {sources : Sources} {occurs : Occurrence → Prop} {p p' : Progress}

/-- A step adds a terminal node, a control node or no node. -/
theorem Step.nodesFrom (h : Step sources occurs p p') : NodesFrom occurs p.graph p'.graph := by
  cases h with
  | terminal _ _ _ => exact .of_append rfl (.inl rfl)
  | control ho hc _ _ => exact .of_append rfl (.inr ⟨_, _, ho, hc, rfl⟩)
  | ask _ _ _ => exact .of_eq (by rw [asked_graph])
  | _ => exact .of_eq rfl

/-- So does a run, any number of times. -/
theorem Steps.nodesFrom (h : Steps sources occurs p p') : NodesFrom occurs p.graph p'.graph := by
  induction h with
  | refl => exact .refl _
  | tail _ hstep ih => exact ih.trans hstep.nodesFrom

/-- An actuator gets no other node than a terminal node. If its name is taken already, no node is
added at all, so nothing has to be known about the node that has the name. -/
theorem addTerminal_nodesFrom (p : Progress) (name : String) :
    NodesFrom occurs p.graph (p.addTerminal name).2.graph := by
  have hadd : ∀ q : Progress, q.graph.nodes = p.graph.nodes → q.graph.hasNode name = false →
      NodesFrom occurs p.graph (q.addNode (NodeType.terminal.instantiate name)).2.graph := by
    intro q hq hnew
    rw [addNode_of_new (n := NodeType.terminal.instantiate name) hnew]
    exact .of_append (congrArg (· ++ _) hq) (.inl rfl)
  unfold addTerminal
  cases hnode : p.graph.hasNode name with
  | true => exact .refl _
  | false =>
    -- registering the type leaves the nodes alone
    cases p.graph.hasNodeType terminalType with
    | true => exact hadd p rfl hnode
    | false => exact hadd (p.register NodeType.terminal) rfl hnode

end Progress

variable {sources : Sources} {lookup : ComponentId → Tree} {p p' : Progress} {o : Occurrence}

/-- The occurrences inside the component that a node of an occurrence refers to. -/
def Occurrence.Below (lookup : ComponentId → Tree) (o : Occurrence) (x : FragmentNode)
    (o' : Occurrence) : Prop :=
  x ∈ o.fragment.nodes ∧ x.isReference = true ∧ (lookup (definitionId x.model)).isEmpty = false ∧
    (o.child lookup x).Reaches lookup o'

/-- A node of a fragment adds control nodes only inside the component that it refers to. A node that
is no reference adds none. -/
theorem expandNode_nodesFrom (levels : Nat) (path : List ComponentId) {x : FragmentNode}
    (hx : x ∈ o.fragment.nodes) (hp : p.lookup sources.definitions = lookup) :
    NodesFrom (o.Below lookup x) p.graph
      (expandNode sources (expand sources levels) path o.pre x p).2.graph := by
  cases nodeCase lookup path x with
  | terminal ht =>
    rw [expandNode_terminal ht]
    exact addTerminal_nodesFrom p _
  | other ht hr =>
    rw [expandNode_other ht hr]
    exact .refl _
  | loop hr hpath =>
    rw [expandNode_loop hr hpath]
    exact .refl _
  | missing hr hpath hd =>
    rw [expandNode_missing hr hpath (hp ▸ hd)]
    exact .of_eq (congrArg Graph.nodes (p.asked_graph sources.definitions (definitionId x.model)))
  | opened hr hpath hd =>
    rw [expandNode_opened hr hpath (hp ▸ hd), hp]
    -- only an opened component adds control nodes, and all of them lie inside it
    have hasked : (p.asked sources.definitions (definitionId x.model)).lookup
        sources.definitions = lookup := (lookup_asked ..).trans hp
    have hrun := (expand_steps levels (path ++ [definitionId x.model]) (o.child lookup x) _
      hasked).nodesFrom
    rw [asked_graph] at hrun
    exact hrun.mono fun o' ho' => ⟨hx, hr, hd, ho'⟩

/-! ## Series of nodes -/

/-- Some nodes of a fragment are expanded in a run of steps. -/
theorem expandNodes_steps (levels : Nat) (path : List ComponentId) {l : List FragmentNode}
    (hl : l ⊆ o.fragment.nodes) (hp : p.lookup sources.definitions = lookup) :
    Steps sources (o.Reaches lookup) p
      (Outcome.each (expandNode sources (expand sources levels) path o.pre) l p).2 :=
  (Outcome.each_ends Steps.refl Steps.trans fun _ hx _ hq =>
    expandNode_steps (expand_steps levels) (hl hx) (hq.lookup_eq.trans hp)).rel

/-- Some nodes of a fragment add control nodes only inside the components that they refer to. -/
theorem expandNodes_nodesFrom (levels : Nat) (path : List ComponentId) {l : List FragmentNode}
    (hl : l ⊆ o.fragment.nodes) (hp : p.lookup sources.definitions = lookup) :
    NodesFrom (fun o' => ∃ x ∈ l, o.Below lookup x o') p.graph
      (Outcome.each (expandNode sources (expand sources levels) path o.pre) l p).2.graph := by
  let R : Progress → Progress → Prop := fun q q' =>
    NodesFrom (fun o' => ∃ x ∈ l, o.Below lookup x o') q.graph q'.graph ∧
      q'.lookup sources.definitions = q.lookup sources.definitions
  have hends : Outcome.EachEnds R (expandNode sources (expand sources levels) path o.pre) l p
      (Outcome.each (expandNode sources (expand sources levels) path o.pre) l p) := by
    -- the relation holds over no steps and over steps in a row, so one node is enough
    refine Outcome.each_ends (fun q => ⟨.refl _, rfl⟩)
      (fun h h' => ⟨h.1.trans h'.1, h'.2.trans h.2⟩) fun x hx q hq => ?_
    have hq' : q.lookup sources.definitions = lookup := hq.2.trans hp
    exact ⟨(expandNode_nodesFrom levels path (hl hx) hq').mono fun _ ho' => ⟨x, hx, ho'⟩,
      (expandNode_steps (expand_steps levels) (hl hx) hq').lookup_eq⟩
  exact hends.rel.1

/-! ## Actuators -/

/-- No two nodes of a fragment that is reached have the same name. -/
def Occurrence.NamesDistinct (lookup : ComponentId → Tree) (o : Occurrence) : Prop :=
  ∀ o', o.Reaches lookup o' → (o'.fragment.nodes.map FragmentNode.name).Nodup

/-- What the node with the name of an actuator is: it was there before, or it is a terminal node, or
it is the control node of an occurrence that the actuator is not inside. An actuator comes before
the control node of its own fragment and of all fragments around it, which is why these are not
among the cases. -/
inductive StandsFor (lookup : ComponentId → Tree) (o : Occurrence) (g : Graph) (chain : List String)
    (n : Node) : Prop where
  | old (h : g.node? (flatName o.pre chain) = some n)
  | terminal (h : n = NodeType.terminal.instantiate (flatName o.pre chain))
  | control (h : o.ControlClash lookup chain)

namespace StandsFor

/-- What some nodes of a fragment have added does not stand for an actuator whose chain starts with
another node, unless it has its name by chance. -/
theorem of_nodesFrom {l : List FragmentNode} {g g' : Graph} {first : String} {rest : List String}
    {n : Node} (h : NodesFrom (fun o' => ∃ x ∈ l, o.Below lookup x o') g g')
    (hapart : ∀ x ∈ l, x.name ≠ first)
    (hn : g'.node? (flatName o.pre (first :: rest)) = some n) :
    StandsFor lookup o g (first :: rest) n := by
  rcases h _ n hn with hn | hn | ⟨o', c, ⟨x, hx, hmem, hr, hd, ho'⟩, hc, hname⟩
  · exact .old hn
  · exact .terminal hn
  · obtain ⟨names, hnames⟩ := ho'.exists_names
    exact .control ⟨x.name :: names, o', c, .head hmem hr hd hnames, hc,
      fun hpre => hapart x hx (List.cons_prefix_cons.mp hpre).1, hname⟩

/-- What stands for an actuator of a component stands for it in the fragment that refers to the
component. -/
theorem of_child {x : FragmentNode} {g g' : Graph} {chain : List String} {n : Node}
    (hx : x ∈ o.fragment.nodes) (hr : x.isReference = true)
    (hd : (lookup (definitionId x.model)).isEmpty = false)
    (hold : g'.node? (flatName o.pre (x.name :: chain)) = some n →
      StandsFor lookup o g (x.name :: chain) n)
    (h : StandsFor lookup (o.child lookup x) g' chain n) :
    StandsFor lookup o g (x.name :: chain) n := by
  cases h with
  | old hn => exact hold hn
  | terminal hn => exact .terminal hn
  | control hclash =>
    -- a clash inside the child is one here, with the name of the child in front
    obtain ⟨names, o', c, hreach, hc, hapart, hname⟩ := hclash
    exact .control ⟨x.name :: names, o', c, .head hx hr hd hreach, hc,
      fun hpre => hapart (List.cons_prefix_cons.mp hpre).2, hname⟩

end StandsFor

/-- An expansion that succeeds, split at a node of the fragment. What comes before it concerns nodes
of other names, and what comes after it takes nothing away. -/
theorem expand_split {levels : Nat} {path : List ComponentId}
    (hp : p.lookup sources.definitions = lookup)
    (hdistinct : (o.fragment.nodes.map FragmentNode.name).Nodup)
    (h : expand sources (levels + 1) path o.fragment o.pre p = (.ok (), p')) {x : FragmentNode}
    (hx : x ∈ o.fragment.nodes) :
    ∃ (before : List FragmentNode) (q q' : Progress), (∀ y ∈ before, y.name ≠ x.name) ∧
      NodesFrom (fun o' => ∃ y ∈ before, o.Below lookup y o') p.graph q.graph ∧
      q.lookup sources.definitions = lookup ∧
      expandNode sources (expand sources levels) path o.pre x q = (.ok (), q') ∧
      q'.graph.Grows p'.graph := by
  have hself : o.Reaches lookup o := .refl
  -- the control subgraph is connected when all nodes have been expanded
  rw [expand_succ] at h
  obtain ⟨r, hnodes, hconnect⟩ := Outcome.andThen_eq_ok h
  obtain ⟨r', hconnect', hlast, -⟩ := connect_run sources r hself
  rw [hconnect] at hconnect'
  cases hconnect'
  obtain ⟨before, after, q, q', hl, hbefore, hstep, hafter⟩ := Outcome.each_split hx hnodes
  have hsub : before ⊆ o.fragment.nodes := by simp [hl]
  have hsub' : after ⊆ o.fragment.nodes := by
    rw [hl]
    exact fun y hy => List.mem_append_right _ (List.mem_cons_of_mem _ hy)
  have hfrom := expandNodes_nodesFrom levels path hsub hp
  have hq := (expandNodes_steps levels path hsub hp).lookup_eq
  rw [hbefore] at hfrom hq
  -- from the node on, the graph only grows
  have hown : Steps sources (o.Reaches lookup) q
      (expandNode sources (expand sources levels) path o.pre x q).2 :=
    expandNode_steps (expand_steps levels) hx (hq.trans hp)
  rw [hstep] at hown
  have hrest := expandNodes_steps levels path hsub' (hown.lookup_eq.trans (hq.trans hp))
  rw [hafter] at hrest
  refine ⟨before, q, q', fun y hy hname => ?_, hfrom, hq.trans hp, hstep,
    (hrest.trans hlast).grows⟩
  rw [hl, List.map_append, List.map_cons, List.nodup_append] at hdistinct
  exact hdistinct.2.2 _ (List.mem_map_of_mem hy) _ List.mem_cons_self hname

/-- A node stands for every actuator of the fragment itself when an expansion has succeeded. -/
theorem expand_stands_here {levels : Nat} {path : List ComponentId}
    (hp : p.lookup sources.definitions = lookup) (hdistinct : o.NamesDistinct lookup)
    (h : expand sources (levels + 1) path o.fragment o.pre p = (.ok (), p')) {m : String}
    (hm : m ∈ o.fragment.terminals) :
    ∃ n, p'.graph.node? (flatName o.pre [m]) = some n ∧ StandsFor lookup o p.graph [m] n := by
  obtain ⟨x, hx, rfl⟩ := List.mem_map.mp hm
  obtain ⟨hmem, ht⟩ := List.mem_filter.mp hx
  obtain ⟨before, q, q', hbefore, hfrom, hq, hstep, hgrows⟩ :=
    expand_split hp (hdistinct o .refl) h hmem
  have hown := expandNode_nodesFrom levels path hmem hq
  rw [hstep] at hown
  have hself : o.Reaches lookup o := .refl
  obtain ⟨q'', hadd, -, hnode⟩ := addTerminal_run sources q hself hm
  rw [expandNode_terminal ht, hadd] at hstep
  cases hstep
  obtain ⟨n, hn⟩ := Option.isSome_iff_exists.mp hnode
  -- an actuator has nothing inside of it, so the node has come with the nodes before or is new
  have hfrom' : NodesFrom (fun o' => ∃ y ∈ before, o.Below lookup y o') p.graph q'.graph :=
    hfrom.trans (hown.mono fun _ hbelow => by
      rw [FragmentNode.isTerminal_of_isReference hbelow.2.1] at ht
      cases ht)
  exact ⟨n, hgrows.node? hn, .of_nodesFrom hfrom' hbefore hn⟩

/-- **A node stands for every actuator** when an expansion has succeeded. The induction is on the
levels: an actuator is one of the fragment itself, or it is inside a component that one of the nodes
opens. What has been added before this node belongs to nodes of other names. -/
theorem expand_stands (levels : Nat) :
    ∀ (path : List ComponentId) (o : Occurrence) (p p' : Progress),
      p.lookup sources.definitions = lookup → o.NamesDistinct lookup →
      expand sources levels path o.fragment o.pre p = (.ok (), p') →
      ∀ names o' m, o.ReachesBy lookup names o' → m ∈ o'.fragment.terminals →
        ∃ n, p'.graph.node? (flatName o.pre (names ++ [m])) = some n ∧
          StandsFor lookup o p.graph (names ++ [m]) n := by
  induction levels with
  | zero =>
    intro path o p p' _ _ h
    cases h
  | succ levels ih =>
    intro path o p p' hp hdistinct h names o' m hreach hm
    cases hreach with
    | refl => exact expand_stands_here hp hdistinct h hm
    | @head _ _ x names hx hr hd hrest =>
      obtain ⟨before, q, q', hbefore, hfrom, hq, hstep, hgrows⟩ :=
        expand_split hp (hdistinct o .refl) h hx
      have hopens : o.Opens lookup (o.child lookup x) := ⟨x, hx, hr, hd, rfl⟩
      have hinner : (o.child lookup x).NamesDistinct lookup := fun o₁ ho₁ =>
        hdistinct o₁ (.head hopens ho₁)
      obtain ⟨n, hn, hstands⟩ := ih _ (o.child lookup x) _ _ ((lookup_asked ..).trans hq) hinner
        (descend_of_expandNode_eq_ok hq hr hd hstep) names o' m hrest hm
      rw [asked_graph] at hstands
      -- nothing that comes later takes the node away again
      exact ⟨n, hgrows.node? hn,
        .of_child hx hr hd (fun hold => .of_nodesFrom hfrom hbefore hold) hstands⟩

/-! ## Plain names -/

namespace Occurrence

variable {o' : Occurrence} {names chain : List String}

/-- The names of all nodes that are reached are plain. -/
def NamesPlain (lookup : ComponentId → Tree) (o : Occurrence) : Prop :=
  ∀ o', o.Reaches lookup o' → ∀ x ∈ o'.fragment.nodes, PlainName x.name

/-- In fragments of documents names without underscores are plain. -/
theorem namesPlain_of_document {document : Tree} (ho : o.fragment = Fragment.ofDocument document)
    (h : ∀ o', o.Reaches lookup o' → ∀ x ∈ o'.fragment.nodes, '_' ∉ x.name.toList) :
    o.NamesPlain lookup := by
  intro o' hreach x hx
  have hdocument : ∃ d, o'.fragment = Fragment.ofDocument d := by
    rcases Relation.ReflTransGen.cases_tail hreach with rfl | ⟨o₁, -, y, -, -, -, rfl⟩
    · exact ⟨document, ho⟩
    · exact ⟨_, rfl⟩
  obtain ⟨d, hd⟩ := hdocument
  exact ⟨Fragment.name_ne_empty (hd ▸ hx), h o' hreach x hx⟩

/-- A chain of plain names is one of names in fragments that are reached. -/
theorem ReachesBy.plain (h : ReachesBy lookup o names o') (hplain : o.NamesPlain lookup) :
    ∀ name ∈ names, PlainName name := by
  induction h with
  | refl o => simp
  | @head o _ x _ hx hr hd _ ih =>
    have hopens : o.Opens lookup (o.child lookup x) := ⟨x, hx, hr, hd, rfl⟩
    intro name hname
    rcases List.mem_cons.mp hname with rfl | hname
    · exact hplain o .refl x hx
    · exact ih (fun o₁ ho₁ => hplain o₁ (.head hopens ho₁)) name hname

/-- So is the chain of an actuator, which has one name more. -/
theorem HasActuator.plain (h : o.HasActuator lookup chain) (hplain : o.NamesPlain lookup) :
    chain ≠ [] ∧ ∀ name ∈ chain, PlainName name := by
  obtain ⟨names, o', m, hreach, hm, rfl⟩ := h
  obtain ⟨x, hx, rfl⟩ := List.mem_map.mp hm
  refine ⟨by simp, fun name hname => ?_⟩
  rcases List.mem_append.mp hname with hname | hname
  · exact hreach.plain hplain name hname
  · rw [List.mem_singleton.mp hname]
    exact hplain o' hreach.reaches x (List.mem_filter.mp hx).1

/-- Where names are plain, a control subgraph has no name of an actuator outside. -/
theorem HasActuator.no_clash (h : o.HasActuator lookup chain) (hplain : o.NamesPlain lookup) :
    ¬ o.ControlClash lookup chain := by
  rintro ⟨names, o', c, hreach, -, hapart, hname⟩
  obtain ⟨hne, hchain⟩ := h.plain hplain
  rw [controlName, hreach.pre_eq] at hname
  obtain ⟨more, -, hmore⟩ :=
    prefix_of_flatName_eq hne (hreach.plain hplain) hchain hname
  exact hapart ⟨more, hmore.symm⟩

end Occurrence

/-! ## Calls -/

/-- **Actuators in the flat graph.** A fragment is resolved into a graph without nodes, and no two
nodes of a fragment have the same name. The node with the flat name of an actuator stands for it,
and two actuators have the same node exactly if they have the same flat name. The node is a terminal
node, unless the control subgraph of a component that the actuator is not inside has its flat name.
Where no name has an underscore, different actuators have different nodes, all of them terminal
nodes. -/
theorem actuators_flattened (s : Session) (sources : Sources) (g : Graph) (document : Tree)
    (pre : String) (report : ResolveReport) (hnodes : g.nodes = [])
    (hdistinct : Occurrence.NamesDistinct (s.lookup sources) ⟨Fragment.ofDocument document, pre⟩)
    (hok : (s.resolve sources g document pre).result = .ok report) :
    let lookup := s.lookup sources
    let o : Occurrence := ⟨Fragment.ofDocument document, pre⟩
    let final := (s.resolve sources g document pre).graph
    (∀ chain, o.HasActuator lookup chain → ∃ n, final.node? (flatName pre chain) = some n ∧
      (n = NodeType.terminal.instantiate (flatName pre chain) ∨ o.ControlClash lookup chain)) ∧
    (∀ chain chain', o.HasActuator lookup chain → o.HasActuator lookup chain' →
      (final.node? (flatName pre chain) = final.node? (flatName pre chain') ↔
        flatName pre chain = flatName pre chain')) ∧
    ((∀ o', o.Reaches lookup o' → ∀ x ∈ o'.fragment.nodes, '_' ∉ x.name.toList) →
      ∀ chain chain', o.HasActuator lookup chain → o.HasActuator lookup chain' → chain ≠ chain' →
        ∃ n n', final.node? (flatName pre chain) = some n ∧
          final.node? (flatName pre chain') = some n' ∧ n ≠ n' ∧
          n.typeName = terminalType ∧ n'.typeName = terminalType) := by
  intro lookup o final
  have hstands : ∀ chain, o.HasActuator lookup chain →
      ∃ n, final.node? (flatName pre chain) = some n ∧
        (n = NodeType.terminal.instantiate (flatName pre chain) ∨ o.ControlClash lookup chain) := by
    rintro chain ⟨names, o', m, hreach, hm, rfl⟩
    obtain ⟨p, hrun, hgraph⟩ := resolveWithin_ok hok
    have hexpand : expand sources (s.levels sources o.fragment) [] o.fragment o.pre
        { graph := g, cache := s.cache } = (.ok (), p) := hrun
    have hlookup : Progress.lookup { graph := g, cache := s.cache } sources.definitions = lookup :=
      rfl
    obtain ⟨n, hn, hstands⟩ :=
      expand_stands _ [] o _ p hlookup hdistinct hexpand names o' m hreach hm
    refine ⟨n, ?_, ?_⟩
    · rw [show final = p.graph from hgraph]
      exact hn
    cases hstands with
    | old hold =>
      -- there were no nodes
      simp [Graph.node?, hnodes] at hold
    | terminal hterminal => exact .inl hterminal
    | control hclash => exact .inr hclash
  have hsame : ∀ chain chain', o.HasActuator lookup chain → o.HasActuator lookup chain' →
      (final.node? (flatName pre chain) = final.node? (flatName pre chain') ↔
        flatName pre chain = flatName pre chain') := by
    intro chain chain' h h'
    obtain ⟨n, hn, -⟩ := hstands chain h
    refine ⟨fun heq => ?_, fun heq => by rw [heq]⟩
    rw [← Graph.name_of_node? hn, Graph.name_of_node? (heq ▸ hn)]
  refine ⟨hstands, hsame, fun hplain chain chain' h h' hne => ?_⟩
  have hnames : o.NamesPlain lookup := Occurrence.namesPlain_of_document rfl hplain
  obtain ⟨n, hn, hterminal⟩ := hstands chain h
  obtain ⟨n', hn', hterminal'⟩ := hstands chain' h'
  have hflat : flatName pre chain ≠ flatName pre chain' := fun heq =>
    hne (flatName_injective (h.plain hnames).1 (h'.plain hnames).1 (h.plain hnames).2
      (h'.plain hnames).2 heq)
  refine ⟨n, n', hn, hn', fun heq => hflat ?_, ?_, ?_⟩
  · exact (hsame chain chain' h h').mp (by rw [hn, hn', heq])
  · rw [hterminal.resolve_right (h.no_clash hnames)]
    rfl
  · rw [hterminal'.resolve_right (h'.no_clash hnames)]
    rfl

set_option maxRecDepth 10000 in
/-- The legs of a robot have names without underscores, so the hips of both have terminal nodes of
their own. -/
theorem twoLegs_flattened :
    let final := (Session.fresh.resolve legSources Graph.empty twoLegs "robot").graph
    ∃ n n', final.node? (flatName "robot" ["left", "hip"]) = some n ∧
      final.node? (flatName "robot" ["right", "hip"]) = some n' ∧ n ≠ n' ∧
      n.typeName = terminalType ∧ n'.typeName = terminalType := by
  let lookup := Session.fresh.lookup legSources
  let o : Occurrence := ⟨Fragment.ofDocument twoLegs, "robot"⟩
  let leg := Fragment.ofDocument (lookup (definitionId "leg"))
  -- only two fragments occur, so the conditions on all occurrences can be evaluated
  have hreached : ∀ o', o.Reaches lookup o' → o'.fragment ∈ [o.fragment, leg] := fun o' ho' =>
    ho'.fragment_mem (by decide +kernel) List.mem_cons_self
  have hactuator : ∀ x ∈ o.fragment.nodes, x.model = "leg" → x.isReference = true →
      o.HasActuator lookup [x.name, "hip"] := by
    intro x hx hmodel hr
    have hchild : (o.child lookup x).fragment = leg := by
      simp only [Occurrence.child, hmodel]
      rfl
    refine ⟨[x.name], o.child lookup x, "hip", .head hx hr ?_ (.refl _), ?_, rfl⟩
    · rw [hmodel]
      decide +kernel
    · rw [hchild]
      decide +kernel
  obtain ⟨-, -, hplain⟩ := actuators_flattened Session.fresh legSources Graph.empty twoLegs "robot"
    ⟨6, 2, 0, 1, 1⟩ rfl
    (fun o' ho' => by
      have hall : ∀ f ∈ [o.fragment, leg], (f.nodes.map FragmentNode.name).Nodup := by
        decide +kernel
      exact hall _ (hreached o' ho'))
    (eq_ok_of_toOption (by decide +kernel))
  refine hplain (fun o' ho' x hx => ?_) ["left", "hip"] ["right", "hip"] ?_ ?_ (by decide)
  · have hall : ∀ f ∈ [o.fragment, leg], ∀ x ∈ f.nodes, '_' ∉ x.name.toList := by decide +kernel
    exact hall _ (hreached o' ho') x hx
  · exact hactuator ⟨"left", "mechanics", "leg", ""⟩ (by decide +kernel) rfl (by decide)
  · exact hactuator ⟨"right", "mechanics", "leg", ""⟩ (by decide +kernel) rfl (by decide)

/-- An arm with an actuator and a control subgraph without outputs. -/
def clashSources : Sources where
  definitions := (MemoryStore.empty.insert (definitionId "arm")
    (componentDocument [("b", terminalModel)]
      [("mechanicsData",
        .ofEntries [("data", .ofEntries [("bagel_control", .text "c.yml")])])])).source
  library := .ofDocuments (.ofList [("c.yml", .ofEntries [("nodes", .seq [])])])

/-- A robot with this arm between two actuators, one of which has the flat name of the actuator of
the arm and the other one that of its control subgraph. -/
def clashingRobot : Tree :=
  componentDocument [("a_b", terminalModel), ("a", "arm"), ("a_c", terminalModel)] []

set_option maxRecDepth 10000 in
/-- **Actuators can share a node.** The robot has three actuators, but there is only one terminal
node: two of the actuators share it, and the control node of the arm stands for the third one. -/
theorem clashingRobot_merged :
    let lookup := Session.fresh.lookup clashSources
    let o : Occurrence := ⟨Fragment.ofDocument clashingRobot, ""⟩
    let r := Session.fresh.resolve clashSources Graph.empty clashingRobot ""
    o.NamesDistinct lookup ∧ r.result = .ok ⟨2, 0, 0, 0, 1⟩ ∧
      o.HasActuator lookup ["a_b"] ∧ o.HasActuator lookup ["a", "b"] ∧
      o.HasActuator lookup ["a_c"] ∧
      r.graph.nodes.map (fun n => (n.name, n.typeName)) =
        [("a_b", terminalType), ("a_c", "c.yml")] ∧
      ¬ ∃ node : List String → Node,
        (∀ chain, o.HasActuator lookup chain →
          node chain ∈ r.graph.nodes ∧ (node chain).typeName = terminalType) ∧
        ∀ chain chain', o.HasActuator lookup chain → o.HasActuator lookup chain' →
          chain ≠ chain' → node chain ≠ node chain' := by
  intro lookup o r
  let arm := Fragment.ofDocument (lookup (definitionId "arm"))
  have hdistinct : o.NamesDistinct lookup := by
    intro o' ho'
    have hreached : o'.fragment ∈ [o.fragment, arm] :=
      ho'.fragment_mem (by decide +kernel) List.mem_cons_self
    have hall : ∀ f ∈ [o.fragment, arm], (f.nodes.map FragmentNode.name).Nodup := by decide +kernel
    exact hall _ hreached
  have houter : ∀ m ∈ o.fragment.terminals, o.HasActuator lookup [m] := fun m hm =>
    ⟨[], o, m, .refl o, hm, rfl⟩
  have hinner : o.HasActuator lookup ["a", "b"] := by
    refine ⟨["a"], o.child lookup ⟨"a", "mechanics", "arm", ""⟩, "b",
      .head (x := ⟨"a", "mechanics", "arm", ""⟩) ?_ ?_ ?_ (.refl _), ?_, rfl⟩ <;> decide +kernel
  have hfirst : o.HasActuator lookup ["a_b"] := houter "a_b" (by decide +kernel)
  refine ⟨hdistinct, eq_ok_of_toOption (by decide +kernel), hfirst, hinner,
    houter "a_c" (by decide +kernel), by decide +kernel, ?_⟩
  rintro ⟨node, hnode, hapart⟩
  -- there is no second terminal node
  have honly : ∀ n ∈ r.graph.nodes, ∀ n' ∈ r.graph.nodes,
      n.typeName = terminalType → n'.typeName = terminalType → n = n' := by decide +kernel
  obtain ⟨hmem, htype⟩ := hnode _ hfirst
  obtain ⟨hmem', htype'⟩ := hnode _ hinner
  exact hapart _ _ hfirst hinner (by decide) (honly _ hmem _ hmem' htype htype')

end ModelGraph
