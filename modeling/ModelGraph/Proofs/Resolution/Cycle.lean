import Mathlib.Data.List.Perm.Subperm
import ModelGraph.Proofs.Resolution.Expansion
import ModelGraph.Proofs.Store.Complete

/-!
# Cycles of references

An expansion follows the references of a fragment depth first, and it fails for one reason only: a
component refers to itself, directly or through others. It stops at the first loop of references
that it comes to.

- `Chain`, `Loop`, `FirstLoop`: chains of references, those that close a loop, and the first one.
- `Room`: the levels of an expansion are never used up, because a path holds no component twice.
- `expand_stops`: an expansion stops at its first loop, and only there.
- `cycle_detection_exact`: the same for calls.
-/

namespace ModelGraph

open Progress

/-! ## Chains of references -/

/-- A chain of references that starts in a fragment: the positions of the nodes that are followed,
and the components that they refer to. All of them but the last one are opened. The positions are
kept since they order the chains as a depth first search does: one chain comes before another if its
list of positions does. -/
inductive Chain (lookup : ComponentId → Tree) : Fragment → List Nat → List ComponentId → Prop where
  | last {f : Fragment} {i : Nat} {x : FragmentNode} (hx : f.nodes[i]? = some x)
      (hr : x.isReference = true) : Chain lookup f [i] [definitionId x.model]
  | opened {f : Fragment} {i : Nat} {x : FragmentNode} {is : List Nat} {ids : List ComponentId}
      (hx : f.nodes[i]? = some x) (hr : x.isReference = true)
      (hd : (lookup (definitionId x.model)).isEmpty = false)
      (hrest : Chain lookup (Fragment.ofDocument (lookup (definitionId x.model))) is ids) :
      Chain lookup f (i :: is) (definitionId x.model :: ids)

/-- Inside the components of a path, the last component of a chain is the first one that comes
again. -/
def Closes (path ids : List ComponentId) : Prop :=
  ∃ before last, ids = before ++ [last] ∧ (path ++ before).Nodup ∧ last ∈ path ++ before

/-- A chain of references that closes a loop inside the components of a path. -/
def Loop (lookup : ComponentId → Tree) (path : List ComponentId) (f : Fragment) (is : List Nat)
    (ids : List ComponentId) : Prop :=
  Chain lookup f is ids ∧ Closes path ids

/-- What comes first of the chains with a property, where nodes are followed depth first. The order
of lists of positions is lexicographic, so an earlier node of a fragment comes first, with all that
is inside of it. -/
def First (among : List Nat → List ComponentId → Prop) (is : List Nat) (ids : List ComponentId) :
    Prop :=
  among is ids ∧ ∀ js ids', among js ids' → ¬ js < is

/-- The first loop that a fragment leads to. -/
def FirstLoop (lookup : ComponentId → Tree) (path : List ComponentId) (f : Fragment) :
    List Nat → List ComponentId → Prop :=
  First (Loop lookup path f)

/-- The loops that start with a node of a fragment, with the positions after it. -/
def NodeLoop (lookup : ComponentId → Tree) (path : List ComponentId) (x : FragmentNode)
    (is : List Nat) (ids : List ComponentId) : Prop :=
  x.isReference = true ∧
    ((definitionId x.model ∈ path ∧ is = [] ∧ ids = [definitionId x.model]) ∨
      (definitionId x.model ∉ path ∧ (lookup (definitionId x.model)).isEmpty = false ∧
        ∃ ids', ids = definitionId x.model :: ids' ∧
          Loop lookup (path ++ [definitionId x.model])
            (Fragment.ofDocument (lookup (definitionId x.model))) is ids'))

variable {lookup : ComponentId → Tree} {path : List ComponentId} {f : Fragment}

/-- A single component closes a loop if it is on the path. -/
theorem closes_singleton (hpath : path.Nodup) {id : ComponentId} :
    Closes path [id] ↔ id ∈ path := by
  constructor
  · rintro ⟨before, last, heq, -, hmem⟩
    cases before with
    | nil =>
      cases heq
      simpa using hmem
    | cons b rest => simp at heq
  · intro hmem
    exact ⟨[], id, rfl, by simpa using hpath, by simpa using hmem⟩

/-- The first of several components belongs to the path of the others. This is how a chain is
followed from one level of an expansion to the next. -/
theorem closes_cons {id : ComponentId} {ids : List ComponentId} (hids : ids ≠ []) :
    Closes path (id :: ids) ↔ Closes (path ++ [id]) ids := by
  constructor
  · rintro ⟨before, last, heq, hnodup, hmem⟩
    -- the first component moves to the path, or back from it
    cases before with
    | nil =>
      cases heq
      exact absurd rfl hids
    | cons b rest =>
      cases heq
      exact ⟨rest, last, rfl, by simpa using hnodup, by simpa using hmem⟩
  · rintro ⟨before, last, heq, hnodup, hmem⟩
    refine ⟨id :: before, last, by rw [heq, List.cons_append], ?_, ?_⟩
    · simpa using hnodup
    · simpa using hmem

/-- In front of a loop that closes later, no component comes again. -/
theorem Closes.nodup_append {id : ComponentId} {ids : List ComponentId}
    (h : Closes (path ++ [id]) ids) : id ∉ path := by
  obtain ⟨before, _, _, hnodup, _⟩ := h
  have hpath := (List.nodup_append.mp hnodup).1
  have hapart := (List.nodup_append.mp hpath).2.2
  exact fun hid => hapart id hid id List.mem_cons_self rfl

/-- A chain has at least one reference. -/
theorem Chain.ne_nil {is : List Nat} {ids : List ComponentId} (h : Chain lookup f is ids) :
    is ≠ [] ∧ ids ≠ [] := by
  cases h <;> simp

/-- A loop starts with one of the nodes. It ends there or goes on in the definition that the node
opens. -/
theorem loop_cons_iff (hpath : path.Nodup) {i : Nat} {is : List Nat} {ids : List ComponentId} :
    Loop lookup path f (i :: is) ids ↔
      ∃ x, f.nodes[i]? = some x ∧ NodeLoop lookup path x is ids := by
  constructor
  · rintro ⟨hchain, hcloses⟩
    -- the chain ends at this node, or goes on in the definition of its model
    cases hchain with
    | @last _ _ x hx hr =>
      exact ⟨x, hx, hr, .inl ⟨(closes_singleton hpath).mp hcloses, rfl, rfl⟩⟩
    | @opened _ _ x _ ids' hx hr hd hrest =>
      have hcloses' := (closes_cons hrest.ne_nil.2).mp hcloses
      exact ⟨x, hx, hr, .inr ⟨hcloses'.nodup_append, hd, ids', rfl, hrest, hcloses'⟩⟩
  · rintro ⟨x, hx, hr, ⟨hmem, rfl, rfl⟩ | ⟨-, hd, ids', rfl, hrest, hcloses⟩⟩
    · exact ⟨.last hx hr, (closes_singleton hpath).mpr hmem⟩
    · exact ⟨.opened hx hr hd hrest, (closes_cons hrest.ne_nil.2).mpr hcloses⟩

/-- A loop starts with some node of the fragment. -/
theorem Loop.exists_node (hpath : path.Nodup) {is : List Nat} {ids : List ComponentId}
    (h : Loop lookup path f is ids) : ∃ x ∈ f.nodes, ∃ js, NodeLoop lookup path x js ids := by
  cases is with
  | nil => exact absurd rfl h.1.ne_nil.1
  | cons i is =>
    obtain ⟨x, hx, hnode⟩ := (loop_cons_iff hpath).mp h
    exact ⟨x, List.mem_of_getElem? hx, is, hnode⟩

/-- The first loop of a fragment is the first loop of the first node that starts one. The nodes
before it start none, so no loop is earlier in depth-first order. -/
theorem firstLoop_of_node (hpath : path.Nodup) {before after : List FragmentNode}
    {x : FragmentNode} {is : List Nat} {ids : List ComponentId}
    (hnodes : f.nodes = before ++ x :: after)
    (hbefore : ∀ y ∈ before, ∀ js ids', ¬ NodeLoop lookup path y js ids')
    (hfirst : First (NodeLoop lookup path x) is ids) :
    FirstLoop lookup path f (before.length :: is) ids := by
  have hx : f.nodes[before.length]? = some x := by simp [hnodes]
  refine ⟨(loop_cons_iff hpath).mpr ⟨x, hx, hfirst.1⟩, fun js ids' hloop hlt => ?_⟩
  cases js with
  | nil => exact hloop.1.ne_nil.1 rfl
  | cons j js =>
    obtain ⟨y, hy, hnode⟩ := (loop_cons_iff hpath).mp hloop
    -- an earlier loop starts with an earlier node, or it is an earlier loop of the same node
    rcases List.cons_lt_cons_iff.mp hlt with hj | ⟨rfl, hrest⟩
    · rw [hnodes, List.getElem?_append_left hj] at hy
      exact hbefore y (List.mem_of_getElem? hy) js ids' hnode
    · rw [hx] at hy
      cases hy
      exact hfirst.2 js ids' hnode hrest

/-! ## Levels -/

/-- There are levels enough to expand a fragment inside the components of a path: the components
opened so far are all different, they are among finitely many, and there is a level for each of the
others. -/
structure Room (lookup : ComponentId → Tree) (all : List String) (levels : Nat)
    (path : List ComponentId) (f : Fragment) : Prop where
  models : f.models ⊆ all
  known : ∀ id, (lookup id).isEmpty = false → (Fragment.ofDocument (lookup id)).models ⊆ all
  enough : ∃ opened : List String, opened.Nodup ∧ opened ⊆ all ∧
    opened.map definitionId ⊆ path ∧ all.length < opened.length + levels

namespace Room

variable {all : List String} {levels : Nat}

/-- There is at least one level left. -/
theorem pos (h : Room lookup all levels path f) : levels ≠ 0 := by
  -- otherwise more components than there are would be open
  rintro rfl
  obtain ⟨opened, hnodup, hsub, -, hlt⟩ := h.enough
  have hle : opened.length ≤ all.length := (hnodup.subperm hsub).length_le
  omega

/-- One level is used up for each component that is opened. -/
theorem opened (h : Room lookup all (levels + 1) path f) {x : FragmentNode}
    (hx : x ∈ f.nodes) (hr : x.isReference = true) (hpath : definitionId x.model ∉ path)
    (hd : (lookup (definitionId x.model)).isEmpty = false) :
    Room lookup all levels (path ++ [definitionId x.model])
      (Fragment.ofDocument (lookup (definitionId x.model))) := by
  -- the new component joins those that are open, and its level is taken off
  obtain ⟨opened, hnodup, hsub, hopened, hlt⟩ := h.enough
  refine ⟨h.known _ hd, h.known, x.model :: opened, ?_, ?_, ?_, ?_⟩
  · -- everything open is on the path, where the component is not
    refine List.nodup_cons.mpr ⟨fun hmem => ?_, hnodup⟩
    exact hpath (hopened (List.mem_map_of_mem hmem))
  · have hmodel : x.model ∈ f.models :=
      List.mem_map_of_mem (List.mem_filter.mpr ⟨hx, hr⟩)
    exact List.cons_subset.mpr ⟨h.models hmodel, hsub⟩
  · refine List.cons_subset.mpr ⟨by simp, fun id hid => ?_⟩
    exact List.mem_append_left _ (hopened hid)
  · rw [List.length_cons]
    omega

end Room

/-- A definition that is known is one that can come up in the session. -/
theorem Session.lookup_mem_reachable (s : Session) {sources : Sources}
    (hcomplete : sources.definitions.Complete) {id : ComponentId}
    (hd : (s.lookup sources id).isEmpty = false) :
    s.lookup sources id ∈ s.reachable sources := by
  unfold Session.lookup DefinitionSource.known at hd ⊢
  -- it comes from the cache, or else the source has answered with it
  cases hcache : s.cache.get? id with
  | some known => exact List.mem_append_left _ (Table.mem_values_of_get? hcache)
  | none =>
    refine List.mem_append_right _ ?_
    simp only [hcache, Option.getD_none, DefinitionSource.answer] at hd ⊢
    cases hfetch : sources.definitions.fetch id with
    | error e =>
      rw [hfetch] at hd
      cases hd
    | ok definition =>
      rw [hfetch] at hd
      exact hcomplete id definition hfetch hd

/-- The levels of a call are enough. -/
theorem Session.room (s : Session) {sources : Sources} (hcomplete : sources.definitions.Complete)
    (path : List ComponentId) (f : Fragment) :
    Room (s.lookup sources)
      (f.models ++ (s.reachable sources).flatMap fun d => (Fragment.ofDocument d).models)
      (s.levels sources f) path f where
  models := List.subset_append_left _ _
  known := by
    intro id hd m hm
    refine List.mem_append_right _ (List.mem_flatMap.mpr ⟨s.lookup sources id, ?_, hm⟩)
    exact s.lookup_mem_reachable hcomplete hd
  -- nothing has been opened yet, so all levels are left
  enough := ⟨[], List.nodup_nil, List.nil_subset _, List.nil_subset _, by
    simp only [Session.levels, List.length_nil]
    omega⟩

/-! ## Where an expansion stops -/

/-- How an expansion inside the components of a path ends, where `among` are the loops that it can
come to: it gets through if there are none, and else it fails at the first one. In particular it
never runs out of levels. -/
inductive Stops (path : List ComponentId) (among : List Nat → List ComponentId → Prop) :
    Except ResolveError Unit → Prop where
  | through (hnone : ∀ is ids, ¬ among is ids) : Stops path among (.ok ())
  | loop {is : List Nat} {ids : List ComponentId} (hfirst : First among is ids) :
      Stops path among (.error (.cycle (path ++ ids)))

variable {sources : Sources}

/-- A node stops an expansion at the first loop that starts with it. What is asked of the level
below is asked only for a component that is not on the path and has a definition. -/
theorem expandNode_stops {descend : List ComponentId → Fragment → String → Progress → Outcome}
    {o : Occurrence} {x : FragmentNode} {p : Progress} (hx : x ∈ o.fragment.nodes)
    (hp : p.lookup sources.definitions = lookup)
    (hdescend : x.isReference = true → definitionId x.model ∉ path →
      (lookup (definitionId x.model)).isEmpty = false →
      ∀ q : Progress, q.lookup sources.definitions = lookup →
        Stops (path ++ [definitionId x.model])
          (Loop lookup (path ++ [definitionId x.model]) (o.child lookup x).fragment)
          (descend (path ++ [definitionId x.model]) (o.child lookup x).fragment
            (o.child lookup x).pre q).1) :
    Stops path (NodeLoop lookup path x) (expandNode sources descend path o.pre x p).1 := by
  cases nodeCase lookup path x with
  | terminal ht =>
    have hself : o.Reaches lookup o := Relation.ReflTransGen.refl
    obtain ⟨p', hadd, -, -⟩ := addTerminal_run sources p hself (Fragment.mem_terminals hx ht)
    rw [expandNode_terminal ht, hadd]
    refine .through fun is ids h => ?_
    rw [FragmentNode.isTerminal_of_isReference h.1] at ht
    cases ht
  | other ht hr =>
    rw [expandNode_other ht hr]
    refine .through fun is ids h => ?_
    rw [h.1] at hr
    cases hr
  | loop hr hpath =>
    rw [expandNode_loop hr hpath]
    have hfirst : First (NodeLoop lookup path x) [] [definitionId x.model] :=
      ⟨⟨hr, .inl ⟨hpath, rfl, rfl⟩⟩, fun js _ _ => List.not_lt_nil js⟩
    exact .loop hfirst
  | missing hr hpath hd =>
    rw [expandNode_missing hr hpath (hp ▸ hd)]
    refine .through fun is ids h => ?_
    rcases h.2 with ⟨hmem, -⟩ | ⟨-, hd', -⟩
    · exact hpath hmem
    · rw [hd] at hd'
      cases hd'
  | opened hr hpath hd =>
    rw [expandNode_opened hr hpath (hp ▸ hd), hp]
    -- the loops of the node are those of the component, with the component in front
    have hinner : ∀ is ids, NodeLoop lookup path x is ids →
        ∃ ids', ids = definitionId x.model :: ids' ∧
          Loop lookup (path ++ [definitionId x.model]) (o.child lookup x).fragment is ids' := by
      rintro is ids ⟨-, ⟨hmem, -⟩ | ⟨-, -, hloop⟩⟩
      · exact absurd hmem hpath
      · exact hloop
    have hstops := hdescend hr hpath hd (p.asked sources.definitions (definitionId x.model))
      (by rw [lookup_asked, hp])
    generalize (descend _ _ _ _).1 = r at hstops
    cases hstops with
    | through hnone =>
      refine .through fun is ids h => ?_
      obtain ⟨ids', -, hloop⟩ := hinner is ids h
      exact hnone is ids' hloop
    | @loop is ids hfirst =>
      rw [List.append_assoc, List.singleton_append]
      refine .loop ⟨⟨hr, .inr ⟨hpath, hd, ids, rfl, hfirst.1⟩⟩, fun js ids' h => ?_⟩
      obtain ⟨ids'', -, hloop⟩ := hinner js ids' h
      exact hfirst.2 js ids'' hloop

/-- **An expansion stops at its first loop**, and it gets through if there is none. The induction is
on the levels; inside a fragment the loops are ordered by the node that they start with. -/
theorem expand_stops {all : List String} (levels : Nat) :
    ∀ (path : List ComponentId) (o : Occurrence) (p : Progress),
      Room lookup all levels path o.fragment → path.Nodup →
      p.lookup sources.definitions = lookup →
      Stops path (Loop lookup path o.fragment)
        (expand sources levels path o.fragment o.pre p).1 := by
  induction levels with
  | zero =>
    intro path o p hroom _ _
    exact absurd rfl hroom.pos
  | succ levels ih =>
    intro path o p hroom hpath hp
    have hnode : ∀ x ∈ o.fragment.nodes, ∀ q, Steps sources (o.Reaches lookup) p q →
        Stops path (NodeLoop lookup path x)
          (expandNode sources (expand sources levels) path o.pre x q).1 := by
      intro x hx q hq
      refine expandNode_stops hx (hq.lookup_eq.trans hp) fun hr hnew hd q' hq' => ?_
      have hpath' : (path ++ [definitionId x.model]).Nodup := by
        rw [← List.concat_eq_append]
        exact hpath.concat hnew
      exact ih _ _ _ (hroom.opened hx hr hnew hd) hpath' hq'
    -- a node that has been expanded starts no loop
    have hnone : ∀ x ∈ o.fragment.nodes, ∀ q q', Steps sources (o.Reaches lookup) p q →
        expandNode sources (expand sources levels) path o.pre x q = (.ok (), q') →
        ∀ is ids, ¬ NodeLoop lookup path x is ids := by
      intro x hx q q' hq hstep
      have hstops := hnode x hx q hq
      rw [hstep] at hstops
      cases hstops with
      | through hnone => exact hnone
    have hends := expandNodes_ends (expand_steps levels) path o hp
    rw [expand_succ]
    generalize Outcome.each _ o.fragment.nodes p = outcome at hends
    cases hends with
    | @done q hsteps hall =>
      have hself : o.Reaches lookup o := Relation.ReflTransGen.refl
      obtain ⟨p', hconnect, -, -⟩ := connect_run sources q hself
      simp only [Outcome.andThen, hconnect]
      refine .through fun is ids hloop => ?_
      obtain ⟨x, hx, js, hinner⟩ := hloop.exists_node hpath
      obtain ⟨r, r', hr, hstep, -⟩ := hall x hx
      exact hnone x hx r r' hr hstep js ids hinner
    | @failed before after x q q' e hl hbefore hq hstep hq' =>
      have hmem : ∀ y ∈ before ++ [x], y ∈ o.fragment.nodes := by
        intro y hy
        rw [hl, ← List.singleton_append, ← List.append_assoc]
        exact List.mem_append_left _ hy
      have hstops := hnode x (hmem x (by simp)) q hq
      rw [hstep] at hstops
      cases hstops with
      | loop hfirst =>
        refine .loop (firstLoop_of_node hpath hl (fun y hy => ?_) hfirst)
        obtain ⟨r, r', hr, hdone⟩ := hbefore y hy
        exact hnone y (hmem y (List.mem_append_left _ hy)) r r' hr hdone

/-! ## Calls -/

/-- A call fails exactly if there is a loop of references inside the components of a path, and its
error tells the first loop. -/
structure FailsAtFirstLoop (lookup : ComponentId → Tree) (path : List ComponentId) (f : Fragment)
    (result : Except ResolveError ResolveReport) : Prop where
  fails_iff : (∃ e, result = .error e) ↔ ∃ is ids, Loop lookup path f is ids
  error_first : ∀ e, result = .error e →
    ∃ is ids, e = .cycle (path ++ ids) ∧ FirstLoop lookup path f is ids

/-- A call inside the components of a path, none of which comes twice. -/
theorem resolveWithin_failsAtFirstLoop (s : Session) {sources : Sources}
    (hcomplete : sources.definitions.Complete) {path : List ComponentId} (hpath : path.Nodup)
    (g : Graph) (document : Tree) (pre : String) :
    FailsAtFirstLoop (s.lookup sources) path (Fragment.ofDocument document)
      (s.resolveWithin sources path g document pre).result := by
  have hstops : Stops path (Loop (s.lookup sources) path (Fragment.ofDocument document))
      (s.run sources path g (Fragment.ofDocument document) pre).1 :=
    expand_stops _ path ⟨Fragment.ofDocument document, pre⟩ { graph := g, cache := s.cache }
      (s.room hcomplete path _) hpath rfl
  have herror : ∀ e, (s.resolveWithin sources path g document pre).result = .error e ↔
      (s.run sources path g (Fragment.ofDocument document) pre).1 = .error e :=
    fun e => resolveWithin_error
  generalize (s.run sources path g (Fragment.ofDocument document) pre).1 = r at hstops herror
  -- the expansion has stopped at the first loop, or gone through because there is none
  cases hstops with
  | through hnone =>
    refine ⟨⟨fun ⟨e, he⟩ => ?_, fun ⟨is, ids, hloop⟩ => absurd hloop (hnone is ids)⟩,
      fun e he => ?_⟩
    · cases (herror e).mp he
    · cases (herror e).mp he
  | @loop is ids hfirst =>
    refine ⟨⟨fun _ => ⟨is, ids, hfirst.1⟩, fun _ => ⟨_, (herror _).mpr rfl⟩⟩, fun e he => ?_⟩
    cases (herror e).mp he
    exact ⟨is, ids, rfl, hfirst⟩

/-- **A call fails exactly if components refer to each other in a loop**, and its error is the first
loop that is come to depth first. The loop starts with the references of the fragment, or with the
identity of the definition that is converted, if it declares one. -/
theorem cycle_detection_exact (s : Session) (sources : Sources)
    (hcomplete : sources.definitions.Complete) (g : Graph) (view : View) (document : Tree)
    (pre : String) :
    FailsAtFirstLoop (s.lookup sources) [] (Fragment.ofDocument document)
        (s.resolve sources g document pre).result ∧
      (view.kind = .control →
        FailsAtFirstLoop sources.definitions.answer
          (ComponentId.ofDefinition document).toOption.toList (Fragment.ofDocument document)
          (s.convert sources view document).result) := by
  refine ⟨resolveWithin_failsAtFirstLoop s hcomplete List.nodup_nil g document pre, fun hkind => ?_⟩
  -- a path of at most one identity repeats none
  have hroot : (ComponentId.ofDefinition document).toOption.toList.Nodup := by
    cases (ComponentId.ofDefinition document).toOption <;> simp
  have hclear : s.clear.lookup sources = sources.definitions.answer := rfl
  rw [Session.convert, if_pos hkind, ← hclear]
  exact resolveWithin_failsAtFirstLoop s.clear hcomplete hroot view.graph document ""

/-- Two components that refer to each other. -/
def ringSources : Sources where
  definitions := ((MemoryStore.empty.insert (definitionId "arm")
    (componentDocument [("grip", "hand")] [])).insert (definitionId "hand")
    (componentDocument [("back", "arm")] [])).source
  library := .ofDocuments OrderedMap.empty

/-- A robot with an arm. -/
def oneArm : Tree := componentDocument [("left", "arm")] []

set_option maxRecDepth 10000 in
/-- The loop of the two components. -/
theorem ring_loop :
    Loop (Session.fresh.lookup ringSources) [] (Fragment.ofDocument oneArm) [0, 0, 0]
      [definitionId "arm", definitionId "hand", definitionId "arm"] := by
  have hclosed : Closes [] [definitionId "arm", definitionId "hand", definitionId "arm"] :=
    ⟨[definitionId "arm", definitionId "hand"], definitionId "arm", rfl, by decide, by decide⟩
  refine ⟨.opened (x := ⟨"left", "mechanics", "arm", ""⟩) ?_ ?_ ?_
    (.opened (x := ⟨"grip", "mechanics", "hand", ""⟩) ?_ ?_ ?_
      (.last (x := ⟨"back", "mechanics", "arm", ""⟩) ?_ ?_)), hclosed⟩ <;> decide +kernel

/-- A robot with an arm cannot be resolved where arm and hand refer to each other. -/
theorem ring_failsAtFirstLoop :
    (∃ e, (Session.fresh.resolve ringSources Graph.empty oneArm "").result = .error e) ∧
      FailsAtFirstLoop ringSources.definitions.answer
        (ComponentId.ofDefinition oneArm).toOption.toList (Fragment.ofDocument oneArm)
        (Session.fresh.convert ringSources ⟨.control, Graph.empty⟩ oneArm).result := by
  have hexact := cycle_detection_exact Session.fresh ringSources
    (MemoryStore.source_complete _) Graph.empty ⟨.control, Graph.empty⟩ oneArm ""
  exact ⟨hexact.1.fails_iff.mpr ⟨_, _, ring_loop⟩, hexact.2 rfl⟩

end ModelGraph
