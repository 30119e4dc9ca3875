import Mathlib.Data.Finset.Card
import ModelGraph.Proofs.Resolution.History

/-!
# Expansions come to an end

An expansion follows references through definitions that are only fetched on the way, and nothing
gets smaller as it does. It ends because no component is opened inside itself. Here an expansion is
taken apart into moments, without a bound on how many there are: the fragments that are being
expanded stand on a stack, beside the path of the components that they belong to.

- `Moment`, `Moment.next`: an expansion on its way, and what happens next.
- `Stage.Ends`: going on from here comes to an end.
- `expand_ends`: where the levels of an expansion suffice, the moments come to the same end.
- `Moment.Bounded`: what one step after the other preserves.
- `Moment.Within`: what follows for the path at every moment.
- `resolution_terminates`: calls end on every source with finitely many definitions.
-/

namespace ModelGraph

open Progress

/-! ## Moments -/

/-- A fragment that is being expanded, with those of its nodes that are still left. -/
structure Frame where
  fragment : Fragment
  pre : String
  left : List FragmentNode

/-- A fragment of which nothing has been expanded yet. -/
def Frame.all (f : Fragment) (pre : String) : Frame := ⟨f, pre, f.nodes⟩

/-- An expansion on its way: its progress, the path of components, the innermost fragment, and the
fragments around it from the inside out. Nothing in it bounds how long the expansion may take,
unlike the levels of `expand`. -/
structure Moment where
  progress : Progress
  path : List ComponentId
  frame : Frame
  outer : List Frame

/-- An expansion is either on its way or over. -/
inductive Stage where
  | underway (m : Moment)
  | over (o : Outcome)

/-- The way on from the end of a step: there is none if the step has failed. -/
def Outcome.goOn (o : Outcome) (next : Progress → Stage) : Stage :=
  match o with
  | (.ok (), p) => next p
  | (.error e, p) => .over (.error e, p)

/-- What follows when a fragment is done: the fragment around it goes on, with the component taken
off the path. -/
def Stage.back (path : List ComponentId) (outer : List Frame) (p : Progress) : Stage :=
  match outer with
  | [] => .over (.ok (), p)
  | frame :: outer => .underway ⟨p, path.dropLast, frame, outer⟩

/-- What happens next: the first node that is left, or the control subgraph behind the last one. A
component that is opened is put onto the path. -/
def Moment.next (sources : Sources) (m : Moment) : Stage :=
  match m.frame.left with
  | [] =>
    (m.progress.connect sources.library m.frame.fragment m.frame.pre).goOn
      (Stage.back m.path m.outer)
  | x :: left =>
    let frame := { m.frame with left }
    let name := prefixed m.frame.pre x.name
    if x.isTerminal then
      (m.progress.addTerminal name).goOn fun p => .underway { m with progress := p, frame }
    else if x.isReference then
      let id := definitionId x.model
      -- a component is not opened inside itself, so that the path cannot grow without end
      if m.path.contains id then .over (.error (.cycle (m.path ++ [id])), m.progress)
      else
        let (definition, p) := m.progress.ask sources.definitions.cached id
        if definition.isEmpty then .underway { m with progress := p.miss, frame }
        else
          .underway ⟨p, m.path ++ [id], .all (Fragment.ofDocument definition) name,
            frame :: m.outer⟩
    else .underway { m with frame }

/-- Going on from here comes to an end, and this is the outcome. It is defined by what happens next,
one moment after the other, and so it holds of no expansion that goes on forever. -/
inductive Stage.Ends (sources : Sources) : Stage → Outcome → Prop where
  | over (o : Outcome) : Ends sources (.over o) o
  | next {m : Moment} {o : Outcome} (h : Ends sources (m.next sources) o) :
      Ends sources (.underway m) o

/-- The moments that come up from a moment on. -/
def Moment.Leads (sources : Sources) : Moment → Moment → Prop :=
  Relation.ReflTransGen fun m m' => m.next sources = .underway m'

/-! ## What happens next -/

variable {sources : Sources}

namespace Moment

variable {p : Progress} {path : List ComponentId} {f : Fragment} {pre : String} {x : FragmentNode}
  {left : List FragmentNode} {outer : List Frame}

/-- A fragment without nodes left is connected to its control subgraph, and the one around it goes
on. -/
theorem next_done :
    (mk p path ⟨f, pre, []⟩ outer).next sources =
      (p.connect sources.library f pre).goOn (Stage.back path outer) := rfl

/-- An actuator is added, and the other nodes are left. -/
theorem next_terminal (hx : x.isTerminal = true) :
    (mk p path ⟨f, pre, x :: left⟩ outer).next sources =
      (p.addTerminal (prefixed pre x.name)).goOn fun p =>
        .underway ⟨p, path, ⟨f, pre, left⟩, outer⟩ := by
  simp [next, hx]

/-- A node of no concern is passed over. -/
theorem next_other (hx : x.isTerminal = false) (hr : x.isReference = false) :
    (mk p path ⟨f, pre, x :: left⟩ outer).next sources =
      .underway ⟨p, path, ⟨f, pre, left⟩, outer⟩ := by
  simp [next, hx, hr]

/-- A component of the path ends the expansion. -/
theorem next_loop (hr : x.isReference = true) (hpath : definitionId x.model ∈ path) :
    (mk p path ⟨f, pre, x :: left⟩ outer).next sources =
      .over (.error (.cycle (path ++ [definitionId x.model])), p) := by
  simp [next, FragmentNode.isTerminal_of_isReference hr, hr, hpath]

/-- A component that is missing is noted, and the other nodes are left. -/
theorem next_missing (hr : x.isReference = true) (hpath : definitionId x.model ∉ path)
    (hd : (p.lookup sources.definitions (definitionId x.model)).isEmpty = true) :
    (mk p path ⟨f, pre, x :: left⟩ outer).next sources =
      .underway ⟨(p.asked sources.definitions (definitionId x.model)).miss, path, ⟨f, pre, left⟩,
        outer⟩ := by
  simp [next, FragmentNode.isTerminal_of_isReference hr, hr, hpath, ask_cached, hd]

/-- A component that is opened goes on top of the stack, and the nodes behind it
are left for later. -/
theorem next_opened (hr : x.isReference = true) (hpath : definitionId x.model ∉ path)
    (hd : (p.lookup sources.definitions (definitionId x.model)).isEmpty = false) :
    (mk p path ⟨f, pre, x :: left⟩ outer).next sources =
      .underway ⟨p.asked sources.definitions (definitionId x.model), path ++ [definitionId x.model],
        .all (Fragment.ofDocument (p.lookup sources.definitions (definitionId x.model)))
          (prefixed pre x.name), ⟨f, pre, left⟩ :: outer⟩ := by
  simp [next, FragmentNode.isTerminal_of_isReference hr, hr, hpath, ask_cached, hd]

end Moment

/-! ## The same end -/

/-- Going on behind two steps is going on behind the first one with the second one. -/
theorem Outcome.andThen_goOn (o : Outcome) (f : Progress → Outcome) (next : Progress → Stage) :
    (o.andThen f).goOn next = o.goOn fun p => (f p).goOn next := by
  obtain ⟨_ | _, p⟩ := o <;> rfl

/-- When a component is done it is taken off the path, and the fragment around it goes on. -/
theorem back_opened (path : List ComponentId) (id : ComponentId) (frame : Frame)
    (outer : List Frame) :
    Stage.back (path ++ [id]) (frame :: outer) = fun p => .underway ⟨p, path, frame, outer⟩ := by
  funext p
  rw [Stage.back, List.dropLast_concat]

/-- Where no fragment is around it, an expansion is over when it is done. -/
theorem Outcome.goOn_back_nil (o : Outcome) (path : List ComponentId) :
    o.goOn (Stage.back path []) = .over o := by
  obtain ⟨_ | _, p⟩ := o <;> rfl

/-- A step is not too deep if going on behind it is not. -/
theorem Outcome.ne_tooDeep_of_andThen {o : Outcome} {f : Progress → Outcome}
    (h : (o.andThen f).1 ≠ .error .tooDeep) :
    o.1 ≠ .error .tooDeep ∧ ∀ p, o = (.ok (), p) → (f p).1 ≠ .error .tooDeep := by
  obtain ⟨_ | _, p⟩ := o
  · refine ⟨h, fun q hq => ?_⟩
    cases hq
  · refine ⟨fun hok => ?_, fun q hq => ?_⟩
    · cases hok
    · cases hq
      exact h

/-- The moments within some nodes of a fragment end as the nodes do with what comes behind them, if
the moments within definitions do. The induction is on the nodes. -/
theorem nodes_end {descend : List ComponentId → Fragment → String → Progress → Outcome}
    (hdescend : ∀ path f pre p outer o, (descend path f pre p).1 ≠ .error .tooDeep →
      ((descend path f pre p).goOn (Stage.back path outer)).Ends sources o →
      (Stage.underway ⟨p, path, .all f pre, outer⟩).Ends sources o)
    (path : List ComponentId) (f : Fragment) (pre : String) (outer : List Frame) (o : Outcome)
    (l : List FragmentNode) :
    ∀ p, (Outcome.each (expandNode sources descend path pre) l p).1 ≠ .error .tooDeep →
      ((Outcome.each (expandNode sources descend path pre) l p).goOn fun p =>
        (p.connect sources.library f pre).goOn (Stage.back path outer)).Ends sources o →
      (Stage.underway ⟨p, path, ⟨f, pre, l⟩, outer⟩).Ends sources o := by
  induction l with
  | nil => exact fun p _ h => .next h
  | cons x rest ih =>
    intro p hdeep h
    -- the run is that of the first node with the run of the others behind it
    rw [Outcome.each] at hdeep h
    rw [Outcome.andThen_goOn] at h
    obtain ⟨hfirst, hrest⟩ := Outcome.ne_tooDeep_of_andThen hdeep
    -- behind the node the moments go on with the other nodes
    have hgo : ((expandNode sources descend path pre x p).goOn fun p =>
        .underway ⟨p, path, ⟨f, pre, rest⟩, outer⟩).Ends sources o := by
      cases hx : expandNode sources descend path pre x p with
      | mk result q =>
        rw [hx] at h hrest
        cases result with
        | error e => exact h
        | ok _ => exact ih q (hrest q rfl) h
    refine .next ?_
    let occurrence : Occurrence := ⟨f, pre⟩
    cases nodeCase (p.lookup sources.definitions) path x with
    | terminal ht =>
      rw [expandNode_terminal (o := occurrence) ht] at hgo
      rw [Moment.next_terminal ht]
      exact hgo
    | other ht hr =>
      rw [expandNode_other (o := occurrence) ht hr] at hgo
      rw [Moment.next_other ht hr]
      exact hgo
    | loop hr hpath =>
      rw [expandNode_loop (o := occurrence) hr hpath] at hgo
      rw [Moment.next_loop hr hpath]
      exact hgo
    | missing hr hpath hd =>
      rw [expandNode_missing (o := occurrence) hr hpath hd] at hgo
      rw [Moment.next_missing hr hpath hd]
      exact hgo
    | opened hr hpath hd =>
      rw [expandNode_opened (o := occurrence) hr hpath hd] at hfirst hgo
      rw [Moment.next_opened hr hpath hd]
      refine hdescend _ _ _ _ _ _ hfirst ?_
      rw [back_opened]
      exact hgo

/-- **The moments of an expansion end as it does**, with whatever comes behind it, where its levels
suffice. The induction is on the levels. -/
theorem expand_ends (levels : Nat) :
    ∀ (path : List ComponentId) (f : Fragment) (pre : String) (p : Progress) (outer : List Frame)
      (o : Outcome), (expand sources levels path f pre p).1 ≠ .error .tooDeep →
      ((expand sources levels path f pre p).goOn (Stage.back path outer)).Ends sources o →
      (Stage.underway ⟨p, path, .all f pre, outer⟩).Ends sources o := by
  induction levels with
  | zero => exact fun path f pre p outer o hdeep => absurd rfl hdeep
  | succ levels ih =>
    intro path f pre p outer o hdeep h
    rw [expand_succ] at hdeep h
    -- all nodes end first, and the rest of the level is left to do
    rw [Outcome.andThen_goOn] at h
    exact nodes_end ih path f pre outer o f.nodes p (Outcome.ne_tooDeep_of_andThen hdeep).1 h

/-! ## Bounds -/

/-- What holds of every moment of an expansion inside the components `root`: on the path
behind them are components with known names, one for each fragment that has been opened, and
none of the path comes twice. The known names are finitely many, so the path and the stack
cannot grow without end. -/
structure Moment.Bounded (sources : Sources) (lookup : ComponentId → Tree)
    (root : List ComponentId) (names : Finset String) (m : Moment) : Prop where
  lookup_eq : m.progress.lookup sources.definitions = lookup
  nodup : m.path.Nodup
  opened : ∃ opened : List String, opened.length = m.outer.length ∧
    (∀ name ∈ opened, name ∈ names) ∧ m.path = root ++ opened.map definitionId
  known : ∀ frame ∈ m.frame :: m.outer, ∀ x ∈ frame.left, x.isReference = true → x.model ∈ names

/-- What adds to the graph alone does not change what is known. -/
theorem Progress.lookup_eq_of_supply {p q : Progress} (h : q.supply = p.supply)
    (source : DefinitionSource) : q.lookup source = p.lookup source := by
  have hcache : q.cache = p.cache := congrArg Supply.cache h
  rw [lookup, lookup, hcache]

/-- Where something is left to do behind a step, the step has not failed. -/
theorem Outcome.goOn_eq_underway {o : Outcome} {next : Progress → Stage} {m : Moment}
    (h : o.goOn next = .underway m) : next o.2 = .underway m := by
  obtain ⟨_ | _, p⟩ := o
  · cases h
  · exact h

namespace Moment.Bounded

variable {lookup : ComponentId → Tree} {root path : List ComponentId} {names : Finset String}
  {m m' : Moment} {p q : Progress} {f : Fragment} {pre : String} {x : FragmentNode}
  {left : List FragmentNode} {outer : List Frame}

/-- A node is done. -/
theorem rest (h : (Moment.mk p path ⟨f, pre, x :: left⟩ outer).Bounded sources lookup root names)
    (hq : q.lookup sources.definitions = p.lookup sources.definitions) :
    (Moment.mk q path ⟨f, pre, left⟩ outer).Bounded sources lookup root names where
  lookup_eq := hq.trans h.lookup_eq
  nodup := h.nodup
  opened := h.opened
  known := by
    intro frame hframe y hy
    rcases List.mem_cons.mp hframe with rfl | houter
    · exact h.known _ List.mem_cons_self y (List.mem_cons_of_mem _ hy)
    · exact h.known frame (List.mem_cons_of_mem _ houter) y hy

/-- A fragment is done that is inside another one. The component leaves the path, and what is left
of the fragment around it is what was left before. -/
theorem back {frame frame' : Frame}
    (h : (Moment.mk p path frame (frame' :: outer)).Bounded sources lookup root names)
    (hq : q.lookup sources.definitions = p.lookup sources.definitions) :
    (Moment.mk q path.dropLast frame' outer).Bounded sources lookup root names where
  lookup_eq := hq.trans h.lookup_eq
  nodup := h.nodup.sublist (List.dropLast_sublist _)
  opened := by
    obtain ⟨opened, hlength, hnames, hpath⟩ := h.opened
    simp only [List.length_cons] at hlength hpath
    -- there is an opened component for this fragment, so nothing of the root is taken off
    have hne : opened.map definitionId ≠ [] := by
      rintro hnil
      rw [List.map_eq_nil_iff.mp hnil] at hlength
      cases hlength
    refine ⟨opened.dropLast, by simp [hlength],
      fun name hname => hnames name (List.mem_of_mem_dropLast hname), ?_⟩
    rw [hpath, List.dropLast_append_of_ne_nil hne, List.map_dropLast]
  known frame'' hframe := h.known frame'' (List.mem_cons_of_mem _ hframe)

/-- A component is opened. Its name stands on the path from now on, where it has not been before. -/
theorem inside (h : (Moment.mk p path ⟨f, pre, x :: left⟩ outer).Bounded sources lookup root names)
    (hr : x.isReference = true) (hpath : definitionId x.model ∉ path) {inner : Fragment}
    (hinner : ∀ name ∈ inner.models, name ∈ names) (pre' : String)
    (hq : q.lookup sources.definitions = p.lookup sources.definitions) :
    (Moment.mk q (path ++ [definitionId x.model]) (.all inner pre')
      (⟨f, pre, left⟩ :: outer)).Bounded sources lookup root names where
  lookup_eq := hq.trans h.lookup_eq
  nodup := by
    rw [← List.concat_eq_append]
    exact List.Nodup.concat hpath h.nodup
  opened := by
    -- the path is one component longer, and so is the list of the models opened on it
    obtain ⟨opened, hlength, hnames, heq⟩ := h.opened
    simp only at hlength heq
    refine ⟨opened ++ [x.model], by simp [hlength], fun name hname => ?_, by simp [heq]⟩
    rcases List.mem_append.mp hname with hold | hnew
    · exact hnames name hold
    · rw [List.mem_singleton.mp hnew]
      exact h.known _ List.mem_cons_self x List.mem_cons_self hr
  known := by
    intro frame hframe y hy hry
    rcases List.mem_cons.mp hframe with rfl | houter
    · exact hinner _ (List.mem_map_of_mem (List.mem_filter.mpr ⟨hy, hry⟩))
    · exact (h.rest rfl).known frame houter y hy hry

/-- **One step**: whatever happens next, the bounds stay. A step opens a component, closes one or
goes on with the next node. -/
theorem next (h : m.Bounded sources lookup root names)
    (hknown : ∀ id, (lookup id).isEmpty = false →
      ∀ name ∈ (Fragment.ofDocument (lookup id)).models, name ∈ names)
    (hnext : m.next sources = .underway m') : m'.Bounded sources lookup root names := by
  obtain ⟨p, path, ⟨f, pre, left⟩, outer⟩ := m
  cases left with
  | nil =>
    -- the fragment is done, and there is a next moment only if another one is around it
    rw [next_done] at hnext
    have hback := Outcome.goOn_eq_underway hnext
    cases outer with
    | nil => cases hback
    | cons frame outer =>
      cases hback
      exact h.back (lookup_eq_of_supply (connect_supply _ _ _ _) _)
  | cons x left =>
    cases nodeCase (p.lookup sources.definitions) path x with
    | terminal ht =>
      rw [next_terminal ht] at hnext
      cases Outcome.goOn_eq_underway hnext
      exact h.rest (lookup_eq_of_supply (addTerminal_supply _ _) _)
    | other ht hr =>
      rw [next_other ht hr] at hnext
      cases hnext
      exact h.rest rfl
    | loop hr hpath =>
      rw [next_loop hr hpath] at hnext
      cases hnext
    | missing hr hpath hd =>
      rw [next_missing hr hpath hd] at hnext
      cases hnext
      exact h.rest (lookup_asked _ _ _)
    | opened hr hpath hd =>
      rw [next_opened hr hpath hd] at hnext
      cases hnext
      -- what is opened is a definition at hand, so the models that it names are known
      have hlookup : p.lookup sources.definitions = lookup := h.lookup_eq
      rw [hlookup] at hd ⊢
      exact h.inside hr hpath (hknown _ hd) _ (lookup_asked _ _ _)

/-- **Every moment** of an expansion is as bounded as the first one. -/
theorem leads (h : m.Bounded sources lookup root names)
    (hknown : ∀ id, (lookup id).isEmpty = false →
      ∀ name ∈ (Fragment.ofDocument (lookup id)).models, name ∈ names)
    (hleads : m.Leads sources m') : m'.Bounded sources lookup root names := by
  induction hleads with
  | refl => exact h
  | tail _ hnext ih => exact ih.next hknown hnext

/-- The path is no longer than the root and the names. -/
theorem length_le (h : m.Bounded sources lookup root names) :
    m.path.length ≤ root.length + names.card := by
  obtain ⟨opened, -, hnames, hpath⟩ := h.opened
  -- different components of the path have different names
  have hnodup : opened.Nodup := by
    have hmap : (opened.map definitionId).Nodup :=
      (List.nodup_append.mp (hpath ▸ h.nodup)).2.1
    exact hmap.of_map
  have hle : opened.length ≤ names.card := by
    rw [← List.toFinset_card_of_nodup hnodup]
    exact Finset.card_le_card fun name hname => hnames name (List.mem_toFinset.mp hname)
  rw [hpath, List.length_append, List.length_map]
  omega

end Moment.Bounded

/-- The path of a moment holds no component twice. Behind the one that it may start with are only
definitions of models with known names, and it is longer than there are names by one at most. -/
structure Moment.Within (root : Option ComponentId) (names : Finset String) (m : Moment) :
    Prop where
  nodup : m.path.Nodup
  known : ∃ opened : List String, m.path = root.toList ++ opened.map definitionId ∧
    ∀ name ∈ opened, name ∈ names
  length_le : m.path.length ≤ names.card + 1

/-- The bounds of a moment, without the fragments on the stack. -/
theorem Moment.Bounded.within {lookup : ComponentId → Tree} {root : Option ComponentId}
    {names : Finset String} {m : Moment} (h : m.Bounded sources lookup root.toList names) :
    m.Within root names where
  nodup := h.nodup
  known := by
    obtain ⟨opened, -, hnames, hpath⟩ := h.opened
    exact ⟨opened, hpath, hnames⟩
  length_le := by
    have hone : root.toList.length ≤ 1 := by cases root <;> simp
    have hle := h.length_le
    omega

/-! ## Calls -/

/-- The models that a fragment and the definitions of a source refer to. -/
def Sources.modelNames (sources : Sources) (f : Fragment) : Finset String :=
  (f.models ++
    sources.definitions.documents.flatMap fun d => (Fragment.ofDocument d).models).toFinset

/-- The first moment of an expansion in a session. -/
def Session.start (s : Session) (root : List ComponentId) (g : Graph) (f : Fragment)
    (pre : String) : Moment :=
  ⟨{ graph := g, cache := s.cache }, root, .all f pre, []⟩

/-- An expansion inside an optional component comes to an end, and what a call gives is made of it.
Until then its path stays within the models that the fragment and the source name. -/
structure Session.Terminates (s : Session) (sources : Sources) (root : Option ComponentId)
    (g : Graph) (document : Tree) (pre : String) (given : Resolution) : Prop where
  ends : ∃ o : Outcome,
    (Stage.underway (s.start root.toList g (Fragment.ofDocument document) pre)).Ends sources o ∧
      given = o.resolution s.fetches ∧ o.1 ≠ .error .tooDeep
  within : ∀ m, (s.start root.toList g (Fragment.ofDocument document) pre).Leads sources m →
    m.Within root (sources.modelNames (Fragment.ofDocument document))

/-- What a faithful session knows are definitions of its source. -/
theorem Session.Faithful.models_subset {s : Session} (h : s.Faithful sources)
    (hcomplete : sources.definitions.Complete) (f : Fragment) (id : ComponentId)
    (hd : (s.lookup sources id).isEmpty = false) :
    ∀ name ∈ (Fragment.ofDocument (s.lookup sources id)).models, name ∈ sources.modelNames f := by
  intro name hname
  rw [h] at hd hname
  have hmem : sources.definitions.answer id ∈ sources.definitions.documents :=
    Session.fresh.lookup_mem_reachable hcomplete hd
  exact List.mem_toFinset.mpr
    (List.mem_append_right _ (List.mem_flatMap.mpr ⟨_, hmem, hname⟩))

/-- An expansion ends in a faithful session. -/
theorem Session.Faithful.terminates {s : Session} (h : s.Faithful sources)
    (hcomplete : sources.definitions.Complete) (root : Option ComponentId) (g : Graph)
    (document : Tree) (pre : String) :
    s.Terminates sources root g document pre
      (s.resolveWithin sources root.toList g document pre) := by
  let f := Fragment.ofDocument document
  have hroot : root.toList.Nodup := by cases root <;> simp
  -- the only error of an expansion is a cycle, so its levels suffice
  have hdeep : (s.run sources root.toList g f pre).1 ≠ .error .tooDeep := by
    have hstops : Stops root.toList (Loop (s.lookup sources) root.toList f)
        (s.run sources root.toList g f pre).1 :=
      expand_stops _ root.toList ⟨f, pre⟩ { graph := g, cache := s.cache }
        (s.room hcomplete root.toList f) hroot rfl
    intro hrun
    rw [hrun] at hstops
    cases hstops
  -- nothing has been opened at the first moment, so the path is the root alone
  have hstart : (s.start root.toList g f pre).Bounded sources (s.lookup sources) root.toList
      (sources.modelNames f) := by
    refine ⟨rfl, hroot, ⟨[], rfl, by simp, by simp [start]⟩, ?_⟩
    intro frame hframe x hx hr
    rw [List.mem_singleton.mp hframe] at hx
    exact List.mem_toFinset.mpr (List.mem_append_left _
      (List.mem_map_of_mem (List.mem_filter.mpr ⟨hx, hr⟩)))
  refine ⟨⟨s.run sources root.toList g f pre, ?_, rfl, hdeep⟩, fun m hm => ?_⟩
  · refine expand_ends _ _ _ _ _ _ _ hdeep ?_
    rw [Outcome.goOn_back_nil]
    exact .over _
  · exact (hstart.leads (h.models_subset hcomplete f) hm).within

/-- **Calls end.** Where a source has finitely many definitions, every fragment is resolved into
every graph and under every prefix in a session with any history, and every definition is converted,
cycles of references included. At every moment the components on the path are different, and apart
from the one that a conversion starts with they are definitions of models that the fragment or the
documents of the source name. -/
theorem resolution_terminates (sources : Sources) (hcomplete : sources.definitions.Complete)
    (history : List Call) (g : Graph) (document : Tree) (pre : String) (view : View) :
    let s := Session.fresh.after sources history
    s.Terminates sources none g document pre (s.resolve sources g document pre) ∧
      (view.kind = .control →
        s.clear.Terminates sources (ComponentId.ofDefinition document).toOption view.graph document
          "" (s.convert sources view document)) := by
  intro s
  have hfaithful : s.Faithful sources := (Session.fresh_faithful sources).after history
  refine ⟨hfaithful.terminates hcomplete none g document pre, fun hkind => ?_⟩
  -- clearing leaves an empty cache, which says nothing wrong
  have hclear : s.clear.Faithful sources := rfl
  rw [Session.convert, if_pos hkind]
  exact hclear.terminates hcomplete _ view.graph document ""

/-- The expansion of a robot with an arm ends where arm and hand refer to each other, with at most
three components on its path. -/
theorem oneArm_terminates :
    let s := Session.fresh.after ringSources [.resolve Graph.empty oneArm ""]
    s.Terminates ringSources none Graph.empty oneArm ""
        (s.resolve ringSources Graph.empty oneArm "") ∧
      s.clear.Terminates ringSources (ComponentId.ofDefinition oneArm).toOption Graph.empty oneArm
        "" (s.convert ringSources ⟨.control, Graph.empty⟩ oneArm) ∧
      (ringSources.modelNames (Fragment.ofDocument oneArm)).card = 2 := by
  intro s
  obtain ⟨hresolve, hconvert⟩ := resolution_terminates ringSources
    (MemoryStore.source_complete _) [.resolve Graph.empty oneArm ""] Graph.empty oneArm ""
    ⟨.control, Graph.empty⟩
  exact ⟨hresolve, hconvert rfl, by decide +kernel⟩

end ModelGraph
