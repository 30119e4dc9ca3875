import ModelGraph.Proofs.Resolution.Correspondence

/-!
# Resolvers

A session as an object that is changed by its calls. Beside its cache it holds the components that
are being expanded: each of them is put onto this path before its definition is expanded, and taken
off afterwards. It also remembers what it has asked the store for. Whatever its calls were and
however they ended, nothing is left on the path, and the store has been asked for nothing twice
since the cache was cleared.

- `Walk`: an expansion that changes the path and the requests as it goes.
- `walk_follows`: a walk ends as the expansion does, and leaves the path as it was.
- `Resolver`, `Call`: the object and the calls on it.
- `Resolver.perform_eq`: between calls an object is a session.
-/

namespace ModelGraph

open Progress

/-! ## What leaves definitions alone -/

namespace Outcome

/-- Two steps, the second of which notes nothing about definitions. -/
theorem andThen_supply {o : Outcome} {next : Progress → Outcome} {s : Supply}
    (ho : o.2.supply = s) (hnext : ∀ p : Progress, (next p).2.supply = p.supply) :
    (o.andThen next).2.supply = s := by
  obtain ⟨_ | _, p⟩ := o
  · exact ho
  · exact (hnext p).trans ho

/-- A series of steps that note nothing about definitions. -/
theorem each_supply {α : Type} {step : α → Progress → Outcome}
    (hstep : ∀ a p, (step a p).2.supply = p.supply) (l : List α) (p : Progress) :
    (each step l p).2.supply = p.supply :=
  (each_ends (R := fun q q' => q'.supply = q.supply) (fun _ => rfl) (fun h h' => h'.trans h)
    fun a _ q _ => hstep a q).rel

end Outcome

namespace Progress

/-- Nothing that is added to the graph has a part in definitions. This and the next lemmas say it of
each step that adds something. -/
theorem addNode_supply (p : Progress) (n : Node) : (p.addNode n).2.supply = p.supply := by
  unfold addNode
  split <;> rfl

/-- The same for an edge. -/
theorem addEdge_supply (p : Progress) (e : Edge) : (p.addEdge e).2.supply = p.supply := by
  unfold addEdge
  split <;> rfl

/-- The same for the terminal node of an actuator. -/
theorem addTerminal_supply (p : Progress) (name : String) :
    (p.addTerminal name).2.supply = p.supply := by
  unfold addTerminal
  split
  · rfl
  · split <;> exact addNode_supply _ _

/-- The same for the edges of a control node. -/
theorem joinControl_supply (p : Progress) (node pre : String) (terminals : List String) :
    (p.joinControl node pre terminals).2.supply = p.supply := by
  unfold joinControl
  split
  · refine Outcome.each_supply (fun terminal p => ?_) terminals p
    simp only [joinTerminal]
    split
    · exact addEdge_supply _ _
    · rfl
  · rfl

/-- The same for the node of a control subgraph. -/
theorem addControl_supply (p : Progress) (control name : String) :
    (p.addControl control name).2.supply = p.supply := by
  unfold addControl
  split
  · rfl
  · split
    · exact addNode_supply _ _
    · rfl

/-- The same for the type of a control subgraph, which comes from the library and not from a
definition. -/
theorem loadControl_supply {p p' : Progress} {library : SubgraphLibrary} {control : String}
    (h : p.loadControl library control = some p') : p'.supply = p.supply := by
  unfold loadControl at h
  split at h
  · cases h
    rfl
  · split at h
    · cases h
      rfl
    · cases h

/-- The same for all that a control subgraph takes. -/
theorem connect_supply (p : Progress) (library : SubgraphLibrary) (f : Fragment) (pre : String) :
    (p.connect library f pre).2.supply = p.supply := by
  unfold connect
  split
  · rfl
  · unfold connectControl
    split
    · rfl
    · rename_i hload
      exact Outcome.andThen_supply ((addControl_supply _ _ _).trans (loadControl_supply hload))
        fun p => joinControl_supply p _ _ _

end Progress

/-! ## Walks -/

/-- An expansion on its way: its progress, the components that are being expanded, from the outside
in, and what the store has been asked for. Where `expand` is given its path anew for each component,
a walk puts components onto its own path and takes them off again. -/
structure Walk where
  progress : Progress
  path : List ComponentId
  requests : List ComponentId

namespace Walk

/-- The end of a step. -/
abbrev End := Except ResolveError Unit × Walk

/-- The walk with other progress. -/
def withProgress (w : Walk) (p : Progress) : Walk := { w with progress := p }

/-- The walk on another path. -/
def withPath (w : Walk) (path : List ComponentId) : Walk := { w with path }

/-- A step and then another one, which is left out if the first one has failed. -/
def andThen (r : End) (next : Walk → End) : End :=
  match r with
  | (.ok (), w) => next w
  | (.error e, w) => (.error e, w)

/-- A step that needs no definitions. -/
def take (w : Walk) (o : Outcome) : End := (o.1, w.withProgress o.2)

/-- A definition from the cache or else from the store. -/
def definition (w : Walk) (source : DefinitionSource) (id : ComponentId) : Tree × Walk :=
  let (definition, progress) := w.progress.ask source.cached id
  let requests := if (w.progress.cache.get? id).isSome then w.requests else w.requests ++ [id]
  (definition, { w with progress, requests })

/-- A node of a fragment. The component that it refers to is on the path as long as `descend`
expands its definition. -/
def node (sources : Sources) (descend : Fragment → String → Walk → End) (pre : String)
    (x : FragmentNode) (w : Walk) : End :=
  let name := prefixed pre x.name
  if x.isTerminal then w.take (w.progress.addTerminal name)
  else if x.isReference then
    let id := definitionId x.model
    if w.path.contains id then (.error (.cycle (w.path ++ [id])), w)
    else
      let (definition, w) := w.definition sources.definitions id
      if definition.isEmpty then (.ok (), w.withProgress w.progress.miss)
      else
        let (result, w) :=
          descend (Fragment.ofDocument definition) name (w.withPath (w.path ++ [id]))
        (result, w.withPath w.path.dropLast)
  else (.ok (), w)

/-- A step for every node of a list, up to the first one that fails. -/
def nodes (step : FragmentNode → Walk → End) : List FragmentNode → Walk → End
  | [], w => (.ok (), w)
  | x :: rest, w => andThen (step x w) (nodes step rest)

/-- A fragment with everything it refers to. -/
def fragment (sources : Sources) : Nat → Fragment → String → Walk → End
  | 0, _, _, w => (.error .tooDeep, w)
  | levels + 1, f, pre, w =>
    andThen (nodes (node sources (fragment sources levels) pre) f.nodes w) fun w =>
      w.take (w.progress.connect sources.library f pre)

/-- Where the cache was empty after `cleared` requests, and `before` requests had been made before
the call: the cache holds what has been asked for since, each of it once. -/
structure Logged (cleared before : Nat) (w : Walk) : Prop where
  keys : w.progress.cache.keys = w.requests.drop cleared
  distinct : w.progress.cache.keys.Nodup
  le : cleared ≤ w.requests.length
  count : w.requests.length = before + w.progress.fetches

/-- A walk has ended as an expansion has, with its path as it was. -/
structure Follows (cleared before : Nat) (path : List ComponentId) (o : Outcome) (r : End) :
    Prop where
  result : r.1 = o.1
  progress : r.2.progress = o.2
  path : r.2.path = path
  logged : r.2.Logged cleared before

variable {cleared before : Nat} {w : Walk} {sources : Sources}

/-- Progress that notes nothing about definitions keeps the log. -/
theorem Logged.withProgress (h : w.Logged cleared before) {p : Progress}
    (hp : p.supply = w.progress.supply) : (w.withProgress p).Logged cleared before := by
  have hcache : p.cache = w.progress.cache := congrArg Supply.cache hp
  have hfetches : p.fetches = w.progress.fetches := congrArg Supply.fetches hp
  exact ⟨hcache ▸ h.keys, hcache ▸ h.distinct, h.le, hfetches ▸ h.count⟩

/-- The path has no part in the log. -/
theorem Logged.withPath (h : w.Logged cleared before) (path : List ComponentId) :
    (w.withPath path).Logged cleared before :=
  ⟨h.keys, h.distinct, h.le, h.count⟩

/-- A step that needs no definitions, taken by both. -/
theorem Logged.take (h : w.Logged cleared before) {o : Outcome}
    (ho : o.2.supply = w.progress.supply) : Follows cleared before w.path o (w.take o) :=
  ⟨rfl, rfl, rfl, h.withProgress ho⟩

/-- One step after another, on both sides. Where the first one fails the path is as it was all the
same, since each component is taken off it on the way out. -/
theorem Follows.andThen {path : List ComponentId} {o : Outcome} {r : End}
    (h : Follows cleared before path o r) {next : Progress → Outcome} {next' : Walk → End}
    (hnext : ∀ w, w.Logged cleared before → w.path = path →
      Follows cleared before path (next w.progress) (next' w)) :
    Follows cleared before path (o.andThen next) (andThen r next') := by
  obtain ⟨r, w⟩ := r
  obtain ⟨r', p⟩ := o
  obtain ⟨hresult, hprogress, hpath, hlogged⟩ := h
  cases hresult
  cases hprogress
  cases r with
  -- a failure ends both, and what comes next never runs
  | error e => exact ⟨rfl, rfl, hpath, hlogged⟩
  | ok _ => exact hnext w hlogged hpath

/-- The store is asked only for what is not in the cache, and then it is in the cache. -/
theorem Logged.definition (h : w.Logged cleared before) (source : DefinitionSource)
    (id : ComponentId) : (w.definition source id).2.Logged cleared before := by
  unfold Walk.definition Progress.ask DefinitionSource.cached Progress.supply
  dsimp only
  cases hget : w.progress.cache.get? id with
  | some known => exact ⟨h.keys, h.distinct, h.le, h.count⟩
  | none =>
    -- a new request goes to the end of the log and of the cache alike
    have hnew : id ∉ w.progress.cache.keys := (Table.get?_eq_none_iff _ _).mp hget
    refine ⟨?_, ?_, ?_, ?_⟩
    · show (w.progress.cache.set id _).keys = (w.requests ++ [id]).drop cleared
      rw [Table.keys_set_of_new hget, h.keys, List.drop_append_of_le_length h.le]
    · show (w.progress.cache.set id _).keys.Nodup
      rw [Table.keys_set_of_new hget]
      exact List.nodup_append.mpr ⟨h.distinct, by simp, by
        rintro k hk k' hk' rfl
        exact hnew (List.mem_singleton.mp hk' ▸ hk)⟩
    · show cleared ≤ (w.requests ++ [id]).length
      rw [List.length_append]
      exact Nat.le_add_right_of_le h.le
    · show (w.requests ++ [id]).length = before + (w.progress.fetches + 1)
      rw [List.length_append, h.count]
      rfl

/-- A walk gets the definitions that an expansion gets, and asking for one does
not change its path. -/
theorem definition_eq (w : Walk) (source : DefinitionSource) (id : ComponentId) :
    (w.definition source id).1 = w.progress.lookup source id ∧
      (w.definition source id).2.progress = w.progress.asked source id ∧
      (w.definition source id).2.path = w.path := by
  simp only [Walk.definition, Progress.ask_cached, and_self]

/-- A node of a fragment is walked as it is expanded, given that fragments are. The path is longer
only while the component is walked. -/
theorem node_follows {descend : List ComponentId → Fragment → String → Progress → Outcome}
    {descend' : Fragment → String → Walk → End}
    (hdescend : ∀ f pre w, w.Logged cleared before →
      Follows cleared before w.path (descend w.path f pre w.progress) (descend' f pre w))
    (pre : String) (x : FragmentNode) (hw : w.Logged cleared before) :
    Follows cleared before w.path (expandNode sources descend w.path pre x w.progress)
      (node sources descend' pre x w) := by
  obtain ⟨hanswer, hprogress, hpath⟩ := w.definition_eq sources.definitions (definitionId x.model)
  have hlogged := hw.definition sources.definitions (definitionId x.model)
  -- asking for the definition leaves the path alone, so both branch on the same conditions
  simp only [expandNode, expandNodeWith, node, Progress.ask_cached, hanswer, hpath]
  split
  · exact hw.take (addTerminal_supply _ _)
  · split
    · split
      · exact ⟨rfl, rfl, rfl, hw⟩
      · split
        · exact ⟨rfl, by rw [hprogress]; rfl, hpath, hlogged.withProgress rfl⟩
        · -- what is put onto the path is taken off again, however the component ends
          have hinner := hdescend
            (Fragment.ofDocument (w.progress.lookup sources.definitions (definitionId x.model)))
            (prefixed pre x.name) _ (hlogged.withPath (w.path ++ [definitionId x.model]))
          rw [← hprogress]
          refine ⟨hinner.result, hinner.progress, ?_, hinner.logged.withPath _⟩
          show List.dropLast _ = w.path
          rw [hinner.path]
          exact List.dropLast_concat
    · exact ⟨rfl, rfl, rfl, hw⟩

/-- The nodes of a fragment are walked as they are expanded, each of them on the same path. -/
theorem nodes_follows {step : FragmentNode → Progress → Outcome} {step' : FragmentNode → Walk → End}
    {path : List ComponentId} (hstep : ∀ x w, w.Logged cleared before → w.path = path →
      Follows cleared before path (step x w.progress) (step' x w)) (l : List FragmentNode) :
    ∀ w : Walk, w.Logged cleared before → w.path = path →
      Follows cleared before path (Outcome.each step l w.progress) (nodes step' l w) := by
  induction l with
  | nil => exact fun w hw hpath => ⟨rfl, rfl, hpath, hw⟩
  | cons x rest ih => exact fun w hw hpath => (hstep x w hw hpath).andThen ih

/-- **A walk ends as the expansion does, and its path is as it was**, whether it has failed or not.
The induction is on the levels, for every path. -/
theorem walk_follows (sources : Sources) (levels : Nat) :
    ∀ (f : Fragment) (pre : String) (w : Walk), w.Logged cleared before →
      Follows cleared before w.path (expand sources levels w.path f pre w.progress)
        (fragment sources levels f pre w) := by
  induction levels with
  | zero => exact fun f pre w hw => ⟨rfl, rfl, rfl, hw⟩
  | succ levels ih =>
    intro f pre w hw
    -- what a node opens is walked with one level less, and the path is as before afterwards
    have hnode : ∀ x w', w'.Logged cleared before → w'.path = w.path →
        Follows cleared before w.path
          (expandNode sources (expand sources levels) w.path pre x w'.progress)
          (node sources (fragment sources levels) pre x w') := by
      intro x w' hw' hpath
      rw [← hpath]
      exact node_follows ih pre x hw'
    refine (nodes_follows hnode f.nodes w hw rfl).andThen fun w' hw' hpath => ?_
    rw [← hpath]
    exact hw'.take (connect_supply _ _ _ _)

end Walk

/-! ## Calls -/

/-- What a call gives whose expansion has ended, in a session that had asked the store `fetches`
times before. -/
def Outcome.resolution (o : Outcome) (fetches : Nat) : Resolution :=
  match o with
  | (.ok (), p) => ⟨.ok p.report, p.graph, ⟨p.cache, fetches + p.fetches⟩⟩
  | (.error e, p) => ⟨.error e, p.rollBack, ⟨p.cache, fetches + p.fetches⟩⟩

/-- A call is its expansion and what is made of its end. -/
theorem resolveWithin_eq_resolution (s : Session) (sources : Sources) (path : List ComponentId)
    (g : Graph) (document : Tree) (pre : String) :
    s.resolveWithin sources path g document pre =
      (s.run sources path g (Fragment.ofDocument document) pre).resolution s.fetches := rfl

/-- The session after a call knows what has been fetched, however the call has ended. -/
theorem Outcome.resolution_session (o : Outcome) (fetches : Nat) :
    (o.resolution fetches).session = ⟨o.2.cache, fetches + o.2.fetches⟩ := by
  obtain ⟨_ | _, p⟩ := o <;> rfl

/-- A call on a session: a fragment is resolved into a graph, or a definition is converted. -/
inductive Call where
  | resolve (graph : Graph) (document : Tree) (pre : String)
  | convert (view : View) (definition : Tree)

namespace Session

/-- What a call gives. -/
def perform (s : Session) (sources : Sources) : Call → Resolution
  | .resolve graph document pre => s.resolve sources graph document pre
  | .convert view definition => s.convert sources view definition

/-- A session after some calls. -/
def after (s : Session) (sources : Sources) (calls : List Call) : Session :=
  calls.foldl (fun s call => (s.perform sources call).session) s

end Session

/-- A session as an object: with the components that are being expanded, with everything that it has
asked the store for, and with how much that was when its cache was cleared the last time. The path
is a field of the object, so a call that fails could leave something on it; `perform_eq` says that
none does. -/
structure Resolver extends Session where
  path : List ComponentId
  requests : List ComponentId
  cleared : Nat

namespace Resolver

/-- A new session. -/
def fresh : Resolver := { Session.fresh with path := [], requests := [], cleared := 0 }

/-- What a call gives whose walk has ended, and the object after it. -/
def finish (r : Resolver) (done : Walk.End) : Resolution × Resolver :=
  let resolution := Outcome.resolution (done.1, done.2.progress) r.fetches
  (resolution, { resolution.session with
                 path := done.2.path, requests := done.2.requests, cleared := r.cleared })

/-- A fragment resolved, inside the components that the path holds. -/
def resolve (r : Resolver) (sources : Sources) (graph : Graph) (document : Tree) (pre : String) :
    Resolution × Resolver :=
  let f := Fragment.ofDocument document
  r.finish (Walk.fragment sources (r.levels sources f) f pre
    ⟨{ graph, cache := r.cache }, r.path, r.requests⟩)

/-- A definition converted. The cache is cleared, and the definition itself is put onto the path, if
it declares an identity. -/
def convert (r : Resolver) (sources : Sources) (view : View) (definition : Tree) :
    Resolution × Resolver :=
  if view.kind = .control then
    let r : Resolver :=
      { r with cache := Table.empty, cleared := r.requests.length,
               path := (ComponentId.ofDefinition definition).toOption.toList }
    let (resolution, r) := r.resolve sources view.graph definition ""
    (resolution, { r with path := [] })
  else (⟨.error (.wrongKind .control view.kind), view.graph, r.toSession⟩, r)

/-- A call, and the object after it. -/
def perform (r : Resolver) (sources : Sources) : Call → Resolution × Resolver
  | .resolve graph document pre => r.resolve sources graph document pre
  | .convert view definition => r.convert sources view definition

/-- The object after some calls. -/
def after (r : Resolver) (sources : Sources) (calls : List Call) : Resolver :=
  calls.foldl (fun r call => (r.perform sources call).2) r

/-- Since the cache was cleared the last time, the store has been asked for what is in the cache and
for nothing else, and for nothing twice. All requests are counted. -/
structure Logged (r : Resolver) : Prop where
  keys : r.cache.keys = r.requests.drop r.cleared
  distinct : r.cache.keys.Nodup
  le : r.cleared ≤ r.requests.length
  count : r.requests.length = r.fetches

/-- An object between two calls: nothing is left of a call but what has been fetched. -/
structure Tidy (r : Resolver) : Prop where
  path : r.path = []
  logged : r.Logged

/-- A new object has nothing on its path and has asked for nothing. -/
theorem fresh_tidy : fresh.Tidy := ⟨rfl, rfl, List.nodup_nil, Nat.le_refl 0, rfl⟩

/-- Where a walk has followed an expansion, the call gives what the expansion gives, and the object
keeps the path of the walk and its log. -/
theorem finish_eq {r : Resolver} {path : List ComponentId} {o : Outcome} {done : Walk.End}
    (h : Walk.Follows r.cleared r.fetches path o done) :
    (r.finish done).1 = o.resolution r.fetches ∧
      (r.finish done).2.toSession = (o.resolution r.fetches).session ∧
      (r.finish done).2.path = path ∧ (r.finish done).2.Logged := by
  obtain ⟨result, w⟩ := done
  obtain ⟨hresult, hprogress, hpath, hlogged⟩ := h
  have hdone : (result, w.progress) = o := Prod.ext hresult hprogress
  have hsession : (r.finish (result, w)).2.toSession =
      ⟨w.progress.cache, r.fetches + w.progress.fetches⟩ := Outcome.resolution_session ..
  -- the object keeps what the walk has ended with, and the session is made of the same
  rw [← hdone]
  refine ⟨rfl, rfl, hpath, ?_, ?_, hlogged.le, ?_⟩
  · rw [hsession]
    exact hlogged.keys
  · rw [hsession]
    exact hlogged.distinct
  · rw [hsession]
    exact hlogged.count

/-- Resolving gives what a session gives inside the components of the path, and leaves the path as
it was. -/
theorem resolve_eq {r : Resolver} (hr : r.Logged) (sources : Sources) (g : Graph) (document : Tree)
    (pre : String) :
    let resolution := r.toSession.resolveWithin sources r.path g document pre
    let next := (r.resolve sources g document pre).2
    (r.resolve sources g document pre).1 = resolution ∧ next.toSession = resolution.session ∧
      next.path = r.path ∧ next.Logged := by
  have hstart : Walk.Logged r.cleared r.fetches
      ⟨{ graph := g, cache := r.cache }, r.path, r.requests⟩ :=
    ⟨hr.keys, hr.distinct, hr.le, hr.count⟩
  simp only [resolveWithin_eq_resolution]
  exact finish_eq (Walk.walk_follows sources _ (Fragment.ofDocument document) pre _ hstart)

/-- Converting gives what a session gives, and leaves nothing on the path. -/
theorem convert_eq {r : Resolver} (hr : r.Tidy) (sources : Sources) (view : View)
    (definition : Tree) :
    let resolution := r.toSession.convert sources view definition
    let next := (r.convert sources view definition).2
    (r.convert sources view definition).1 = resolution ∧ next.toSession = resolution.session ∧
      next.Tidy := by
  simp only [convert, Session.convert]
  split
  · -- the cleared object has asked for nothing since
    have hcleared : Logged
        { r with cache := Table.empty, cleared := r.requests.length,
                 path := (ComponentId.ofDefinition definition).toOption.toList } :=
      ⟨List.drop_length.symm, List.nodup_nil, Nat.le_refl _, hr.logged.count⟩
    obtain ⟨hresolution, hsession, -, hlogged⟩ :=
      resolve_eq hcleared sources view.graph definition ""
    exact ⟨hresolution, hsession, rfl, hlogged.keys, hlogged.distinct, hlogged.le, hlogged.count⟩
  · exact ⟨rfl, rfl, hr⟩

/-- **Between two calls an object is a session**: a call gives what it gives on the session, and
nothing is left of it but what has been fetched, whether it fails or not. -/
theorem perform_eq {r : Resolver} (hr : r.Tidy) (sources : Sources) (call : Call) :
    (r.perform sources call).1 = r.toSession.perform sources call ∧
      (r.perform sources call).2.toSession = (r.toSession.perform sources call).session ∧
      (r.perform sources call).2.Tidy := by
  cases call with
  | resolve graph document pre =>
    obtain ⟨hresolution, hsession, hpath, hlogged⟩ :=
      resolve_eq hr.logged sources graph document pre
    -- between calls the path is empty, so the call is not inside any component
    rw [hr.path] at hresolution hsession hpath
    exact ⟨hresolution, hsession, hpath, hlogged⟩
  | convert view definition => exact convert_eq hr sources view definition

/-- After any calls an object is the session after the same calls. -/
theorem after_eq {r : Resolver} (hr : r.Tidy) (sources : Sources) (calls : List Call) :
    (r.after sources calls).toSession = r.toSession.after sources calls ∧
      (r.after sources calls).Tidy := by
  induction calls generalizing r with
  | nil => exact ⟨rfl, hr⟩
  | cons call rest ih =>
    -- each call leaves a tidy object, which is what the next one needs to find
    obtain ⟨-, hsession, htidy⟩ := perform_eq hr sources call
    obtain ⟨hrest, hrestTidy⟩ := ih htidy
    rw [hsession] at hrest
    exact ⟨hrest, hrestTidy⟩

end Resolver
end ModelGraph
