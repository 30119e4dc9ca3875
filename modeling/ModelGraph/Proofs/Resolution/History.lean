import ModelGraph.Proofs.Resolution.Repetition
import ModelGraph.Proofs.Resolution.Resolver

/-!
# Sessions with a history

What a session has fetched before saves it from asking the store again, and nothing else. A call
gives the same after any history of calls as in a new session, and the same as it gives without a
cache.

- `resolveUncached`: a fragment expanded with every definition fetched from the store.
- `throughCache`: expansions with and without a cache correspond, if the cache is faithful.
- `history_invisible`: what this means for sessions, and how often they ask the store.
-/

namespace ModelGraph

open Progress

/-! ## Without a cache -/

/-- A definition from the store, whether it has been asked for it before or not. -/
def DefinitionSource.uncached (source : DefinitionSource) : Supplier := fun s id =>
  (source.answer id, { s with fetches := s.fetches + 1 })

/-- A report with definitions found in the cache counted as fetches. -/
def ResolveReport.withoutCache (r : ResolveReport) : ResolveReport :=
  { r with cacheHits := 0, storeFetches := r.cacheHits + r.storeFetches }

/-- The result and the graph that a call gives, with definitions found in the cache
counted as fetches. This is all that may depend on a cache: which definitions are cached
is seen nowhere else. -/
def Resolution.withoutCache (r : Resolution) : Except ResolveError ResolveReport × Graph :=
  (r.result.map ResolveReport.withoutCache, r.graph)

/-- A fragment expanded with definitions that are all fetched from the store. -/
def runUncached (sources : Sources) (levels : Nat) (graph : Graph) (f : Fragment) (pre : String) :
    Outcome :=
  expandWith sources.definitions.uncached sources.library levels [] f pre
    { graph, cache := Table.empty }

/-- A fragment expanded into a graph under a prefix, with every definition fetched from the store
each time that it is needed. -/
def resolveUncached (sources : Sources) (graph : Graph) (document : Tree) (pre : String) :
    Resolution :=
  let f := Fragment.ofDocument document
  (runUncached sources (Session.fresh.levels sources f) graph f pre).resolution 0

/-! ## With a cache -/

/-- An expansion with a cache corresponds to the one without, as long as nothing is cached but what
the store answers. Both have asked for as many definitions: what the one has found in its cache, the
other has fetched once more. -/
def throughCache (source : DefinitionSource) : Correspondence source.cached source.uncached where
  rename := id
  prefixes := Eq
  types := Eq
  supplies s s' :=
    source.known s.cache = source.answer ∧ s'.hits = 0 ∧ s'.fetches = s.hits + s.fetches
  rename_injective := Function.injective_id
  prefixed_eq h _ := by rw [h, id]
  prefixes_inner h _ _ := by rw [h]
  types_get? h _ := by rw [h]
  types_insert h _ _ := by rw [h]
  same := by
    rintro s s' ⟨hknown, -, -⟩ id
    have hid : source.known s.cache id = source.answer id := congrFun hknown id
    unfold DefinitionSource.known at hid
    unfold DefinitionSource.cached DefinitionSource.uncached
    cases hget : s.cache.get? id with
    | some known =>
      -- what is cached is what the store answers
      rw [hget] at hid
      exact hid.symm
    | none => rfl
  supplies_next := by
    rintro s s' ⟨hknown, hhits, hfetches⟩ id
    unfold DefinitionSource.cached DefinitionSource.uncached
    cases hget : s.cache.get? id with
    | some known =>
      refine ⟨hknown, hhits, ?_⟩
      simp only [hfetches]
      omega
    | none =>
      -- an answer that is cached is known as the store gives it
      refine ⟨(source.known_set hget).trans hknown, hhits, ?_⟩
      simp only [hfetches]
      omega

/-- Expansions that correspond in this way give the same. -/
theorem resolution_throughCache {source : DefinitionSource} {o o' : Outcome}
    (h : (throughCache source).Agree o o') (fetches fetches' : Nat) :
    (o.resolution fetches).withoutCache =
      ((o'.resolution fetches').result, (o'.resolution fetches').graph) := by
  obtain ⟨r, p⟩ := o
  obtain ⟨r', q⟩ := o'
  obtain ⟨hends, hmirrors⟩ := h
  obtain ⟨-, hhits, hfetches⟩ := hmirrors.supply
  obtain ⟨hgraph, haddedNodes, haddedEdges⟩ :
      q.graph = p.graph ∧ q.addedNodes = p.addedNodes ∧ q.addedEdges = p.addedEdges :=
    hmirrors.eq_of_rename_id rfl Eq.symm
  have hmisses : q.misses = p.misses := hmirrors.misses
  have hhits' : q.hits = 0 := hhits
  have hfetches' : q.fetches = p.hits + p.fetches := hfetches
  -- a failure rolls back what was added, which is the same in both
  cases hends
  cases r with
  | error e =>
    have hrolled : q.rollBack = p.rollBack := by
      simp only [rollBack, hgraph, haddedNodes, haddedEdges]
    simp [Resolution.withoutCache, Outcome.resolution, Except.map, hrolled]
  | ok _ =>
    simp [Resolution.withoutCache, Outcome.resolution, Except.map, hgraph, report,
      ResolveReport.withoutCache, haddedNodes, haddedEdges, hmisses, hhits', hfetches']

/-! ## Calls -/

variable {sources : Sources} {s : Session}

/-- A call leaves a faithful session faithful, whether it fails or not. -/
theorem Session.Faithful.perform (h : s.Faithful sources) (call : Call) :
    (s.perform sources call).session.Faithful sources := by
  cases call with
  | resolve graph document pre => exact h.resolve graph document pre
  | convert view definition =>
    show (s.convert sources view definition).session.Faithful sources
    unfold Session.convert
    split
    · -- with an empty cache it works with what the store answers
      exact resolveWithin_lookup.trans rfl
    · exact h

/-- Whatever its calls were, a session has cached nothing but what the store answers. -/
theorem Session.Faithful.after (h : s.Faithful sources) (calls : List Call) :
    (s.after sources calls).Faithful sources := by
  induction calls generalizing s with
  | nil => exact h
  | cons call rest ih => exact ih (h.perform call)

/-- With something in its cache a session allows for no fewer levels. -/
theorem Session.levels_fresh_le (s : Session) (sources : Sources) (f : Fragment) :
    Session.fresh.levels sources f ≤ s.levels sources f := by
  have hfresh : Session.fresh.reachable sources = sources.definitions.documents := rfl
  unfold Session.levels
  rw [hfresh]
  simp only [reachable, List.flatMap_append, List.length_append]
  omega

/-- An expansion in a faithful session agrees with the one without a cache. -/
theorem Session.Faithful.agree (h : s.Faithful sources) (levels : Nat) (g : Graph) (document : Tree)
    (pre : String) :
    (throughCache sources.definitions).Agree
      (expand sources levels [] (Fragment.ofDocument document) pre { graph := g, cache := s.cache })
      (runUncached sources levels g (Fragment.ofDocument document) pre) := by
  exact expandWith_agree sources.library levels [] document pre pre _ _ rfl
    ⟨(List.map_id _).symm, (List.map_id _).symm, rfl, rfl, rfl, rfl, h, rfl, rfl⟩

/-- A call fails with the error of its expansion. -/
theorem Outcome.resolution_error {o : Outcome} {fetches : Nat} {e : ResolveError} :
    (o.resolution fetches).result = .error e ↔ o.1 = .error e := by
  obtain ⟨_ | _, p⟩ := o <;> simp [resolution]

/-- A new session gives what is given without a cache. -/
theorem Session.fresh_resolve (sources : Sources) (g : Graph) (document : Tree) (pre : String) :
    (Session.fresh.resolve sources g document pre).withoutCache =
      ((resolveUncached sources g document pre).result,
        (resolveUncached sources g document pre).graph) :=
  resolution_throughCache ((Session.fresh_faithful sources).agree _ g document pre) _ 0

/-- A faithful session gives what is given without a cache, if the levels suffice. -/
theorem Session.Faithful.resolve_eq (h : s.Faithful sources) {g : Graph} {document : Tree}
    {pre : String} (hdeep : (resolveUncached sources g document pre).result ≠ .error .tooDeep) :
    (s.resolve sources g document pre).withoutCache =
      ((resolveUncached sources g document pre).result,
        (resolveUncached sources g document pre).graph) := by
  let f := Fragment.ofDocument document
  -- the session may allow for more levels than a new one, because its cache counts too
  have hmore : runUncached sources (s.levels sources f) g f pre =
      runUncached sources (Session.fresh.levels sources f) g f pre :=
    expandWith_more sources.library (s.levels_fresh_le sources f) [] f pre _
      fun h => hdeep (Outcome.resolution_error.mpr h)
  have hagree := h.agree (s.levels sources f) g document pre
  rw [hmore] at hagree
  exact resolution_throughCache hagree _ 0

/-- The levels suffice if the store lists its definitions. -/
theorem resolveUncached_ne_tooDeep (hcomplete : sources.definitions.Complete) (g : Graph)
    (document : Tree) (pre : String) :
    (resolveUncached sources g document pre).result ≠ .error .tooDeep := by
  intro hdeep
  have hfresh := congrArg Prod.fst (Session.fresh_resolve sources g document pre)
  rw [hdeep] at hfresh
  have hstops :=
    resolveWithin_failsAtFirstLoop Session.fresh hcomplete List.nodup_nil g document pre
  -- a new session would run out of levels too, but its only errors are cycles
  cases hresult : (Session.fresh.resolve sources g document pre).result with
  | ok report => simp [Resolution.withoutCache, hresult, Except.map] at hfresh
  | error e =>
    obtain ⟨is, ids, rfl, -⟩ := hstops.error_first e hresult
    simp [Resolution.withoutCache, hresult, Except.map] at hfresh

/-- **The history of a session is invisible.** After any calls, whether they have failed or not, a
session resolves a fragment with the same result and into the same graph as a new session, and as
it is done without a cache: the error is the same, or the report is, with definitions found in the
cache counted as fetches. The levels suffice wherever the store lists its definitions.

As an object the session has nothing left on its path then. Since its cache was cleared the last
time it has asked the store for no definition twice, and it has asked for as many as are cached. -/
theorem history_invisible (sources : Sources) (history : List Call) :
    let s := Session.fresh.after sources history
    let r := Resolver.fresh.after sources history
    (∀ g document pre,
      let next := s.resolve sources g document pre
      let afresh := Session.fresh.resolve sources g document pre
      let uncached := resolveUncached sources g document pre
      (r.resolve sources g document pre).1 = next ∧
        (uncached.result ≠ .error .tooDeep →
          next.withoutCache = (uncached.result, uncached.graph)) ∧
        afresh.withoutCache = (uncached.result, uncached.graph) ∧
        (sources.definitions.Complete → uncached.result ≠ .error .tooDeep)) ∧
      r.toSession = s ∧ r.path = [] ∧ r.requests.length = s.fetches ∧
      (r.requests.drop r.cleared).Nodup ∧ r.cleared + s.cache.size = s.fetches := by
  intro s r
  -- a cache that only holds what the source answers is the same as none
  have hfaithful : s.Faithful sources := (Session.fresh_faithful sources).after history
  obtain ⟨hsession, htidy⟩ := Resolver.after_eq Resolver.fresh_tidy sources history
  have hlogged := htidy.logged
  have hr : r.toSession = s := hsession
  refine ⟨fun g document pre => ⟨?_, hfaithful.resolve_eq, Session.fresh_resolve ..,
    fun hcomplete => resolveUncached_ne_tooDeep hcomplete g document pre⟩,
    hr, htidy.path, ?_, ?_, ?_⟩
  · rw [← hr]
    exact (Resolver.perform_eq htidy sources (.resolve g document pre)).1
  · rw [← hr]
    exact hlogged.count
  · rw [← hlogged.keys]
    exact hlogged.distinct
  -- the cache has one entry for each request since it was cleared
  · have hsize : r.cache.size = r.requests.length - r.cleared := by
      rw [← Table.length_keys, hlogged.keys, List.length_drop]
    have hle : r.cleared ≤ r.requests.length := hlogged.le
    have hcount : r.requests.length = r.fetches := hlogged.count
    rw [← hr, hsize]
    omega

set_option maxRecDepth 10000 in
/-- A robot whose arm and hand refer to each other fails in the same way after it has failed
already, although both definitions are cached then. -/
theorem oneArm_fails_again :
    let s := Session.fresh.after ringSources
      [.resolve Graph.empty oneArm "", .convert ⟨.control, Graph.empty⟩ oneArm]
    let next := s.resolve ringSources Graph.empty oneArm ""
    s.cache.size = 2 ∧ s.fetches = 4 ∧ (∃ e, next.result = .error e) ∧
      next.withoutCache =
        (Session.fresh.resolve ringSources Graph.empty oneArm "").withoutCache := by
  intro s next
  obtain ⟨hcalls, -⟩ := history_invisible ringSources
    [.resolve Graph.empty oneArm "", .convert ⟨.control, Graph.empty⟩ oneArm]
  obtain ⟨-, hnext, hfresh, hdeep⟩ := hcalls Graph.empty oneArm ""
  have hcomplete : ringSources.definitions.Complete := MemoryStore.source_complete _
  exact ⟨by decide +kernel, by decide +kernel, exists_error_of_toOption (by decide +kernel),
    (hnext (hdeep hcomplete)).trans hfresh.symm⟩

end ModelGraph
