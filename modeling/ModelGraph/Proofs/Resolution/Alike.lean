import Mathlib.Data.Quot
import ModelGraph.Proofs.Resolution.History

/-!
# Definitions that say the same

A resolution sees of a definition only whether it is empty, and its fragment. So sources whose
definitions say the same lead to the same graphs and to the same reports, call after call, although
what is cached on the way differs.

- `Tree.Alike`: documents that say the same to a resolution.
- `expandWith_reread`: definitions may be replaced by others that say the same.
- `respelled`: expansions from sources that are alike correspond.
- `Session.Alike.resolveWithin`, `Session.Alike.after`: what this means for sessions.
-/

namespace ModelGraph

open Progress

/-! ## Documents -/

/-- Documents that say the same to a resolution: both are empty or none is, and the fragments are
the same. -/
structure Tree.Alike (d d' : Tree) : Prop where
  isEmpty : d'.isEmpty = d.isEmpty
  fragment : Fragment.ofDocument d' = Fragment.ofDocument d

namespace Tree

/-- Every document says what it says. -/
theorem Alike.refl (d : Tree) : Alike d d := ⟨rfl, rfl⟩

/-- Saying the same goes both ways. -/
theorem Alike.symm {d d' : Tree} (h : Alike d d') : Alike d' d := ⟨h.isEmpty.symm, h.fragment.symm⟩

/-- Saying the same may be chained. -/
theorem Alike.trans {d d' d'' : Tree} (h : Alike d d') (h' : Alike d' d'') : Alike d d'' :=
  ⟨h'.isEmpty.trans h.isEmpty, h'.fragment.trans h.fragment⟩

/-- Documents that say the same, as a relation that divides them into classes. -/
def alike : Setoid Tree := ⟨Alike, .refl, .symm, .trans⟩

/-- One document for all that say the same. -/
noncomputable def representative (d : Tree) : Tree := (Quotient.mk alike d).out

/-- A document says the same as the one that stands for its class. -/
theorem alike_representative (d : Tree) : Alike d.representative d :=
  Quotient.mk_out (s := alike) d

/-- Documents that say the same have the same one for their class. This turns sources that are alike
into sources that answer the same, once their answers are read in this form. -/
theorem Alike.representative_eq {d d' : Tree} (h : Alike d d') :
    d'.representative = d.representative := by
  have hclass : Quotient.mk alike d' = Quotient.mk alike d := Quotient.sound h.symm
  rw [representative, representative, hclass]

end Tree

/-! ## Tables -/

/-- Tables with the same keys in the same order, and with values that say the same. -/
def Table.Alike (t t' : Table ComponentId Tree) : Prop :=
  List.Forall₂ (fun e e' => e'.1 = e.1 ∧ Tree.Alike e.2 e'.2) t.entries t'.entries

namespace Table

variable {t t' : Table ComponentId Tree}

/-- A table has the same keys as itself, and values that say the same. -/
theorem Alike.refl (t : Table ComponentId Tree) : t.Alike t :=
  List.forall₂_same.mpr fun _ _ => ⟨rfl, .refl _⟩

/-- Under a key, both tables hold documents that say the same, or none of them holds one. -/
theorem Alike.get? (h : t.Alike t') (id : ComponentId) :
    Option.Rel Tree.Alike (t.get? id) (t'.get? id) := by
  unfold Table.Alike at h
  unfold Table.get?
  generalize t.entries = entries at h
  generalize t'.entries = entries' at h
  induction h with
  | nil => exact .none
  | @cons e e' _ _ hfirst _ ih =>
    obtain ⟨hkey, hvalue⟩ := hfirst
    rw [find?, find?, hkey]
    -- the keys agree, so both tables stop at the same entry
    split
    · exact .some hvalue
    · exact ih

/-- A key may be set in both tables to documents that say the same. -/
theorem Alike.set (h : t.Alike t') (id : ComponentId) {d d' : Tree} (hd : Tree.Alike d d') :
    (t.set id d).Alike (t'.set id d') := by
  unfold Table.Alike at h
  show List.Forall₂ _ (setIn id d t.entries) (setIn id d' t'.entries)
  generalize t.entries = entries at h
  generalize t'.entries = entries' at h
  induction h with
  | nil => exact .cons ⟨rfl, hd⟩ .nil
  | @cons e e' _ _ hfirst hrest ih =>
    rw [setIn, setIn, hfirst.1]
    split
    · exact .cons ⟨rfl, hd⟩ hrest
    · exact .cons ⟨rfl, hfirst.2⟩ ih

/-- All values say the same, one by one. -/
theorem Alike.values (h : t.Alike t') : List.Forall₂ Tree.Alike t.values t'.values := by
  refine List.forall₂_map_left_iff.mpr (List.forall₂_map_right_iff.mpr ?_)
  exact h.imp fun _ _ he => he.2

end Table

/-! ## Sources -/

/-- Sources that answer alike, and that list documents that are alike one by one. -/
structure DefinitionSource.Alike (source source' : DefinitionSource) : Prop where
  answer : ∀ id, Tree.Alike (source.answer id) (source'.answer id)
  documents : List.Forall₂ Tree.Alike source.documents source'.documents

/-- Sources with definitions that are alike, and with the same subgraphs. -/
structure Sources.Alike (sources sources' : Sources) : Prop where
  definitions : sources.definitions.Alike sources'.definitions
  library : sources'.library = sources.library

/-- A way to get definitions that passes them on in another form. -/
def Supplier.reread (form : Tree → Tree) (supplier : Supplier) : Supplier := fun s id =>
  (form (supplier s id).1, (supplier s id).2)

/-- An expansion does not see the form of definitions, as long as they say the same. It looks at
whether a definition is empty and at the fragment it describes, and every form agrees on both. -/
theorem expandWith_reread {form : Tree → Tree} (hform : ∀ d, Tree.Alike (form d) d)
    (supplier : Supplier) (library : SubgraphLibrary) (levels : Nat) :
    expandWith (Supplier.reread form supplier) library levels =
      expandWith supplier library levels := by
  induction levels with
  | zero => rfl
  | succ levels ih =>
    have hnode : ∀ descend path pre,
        expandNodeWith (Supplier.reread form supplier) descend path pre =
        expandNodeWith supplier descend path pre := by
      intro descend path pre
      funext node p
      have hask : ∀ id, p.ask (Supplier.reread form supplier) id =
          (form (p.ask supplier id).1, (p.ask supplier id).2) := fun _ => rfl
      -- the expansion looks at nothing of a definition but these two
      simp only [expandNodeWith, hask, ← (hform _).isEmpty, ← (hform _).fragment]
    funext path fragment pre p
    simp only [expandWith, hnode, ih]

variable {sources sources' : Sources}

/-- Expansions from sources that are alike correspond, once every definition is read in the form
that stands for all that say the same. They find the same identities in their caches, and all
names and types are the same, as with `throughCache`. -/
noncomputable def respelled {source source' : DefinitionSource} (h : source.Alike source') :
    Correspondence (Supplier.reread Tree.representative source.cached)
      (Supplier.reread Tree.representative source'.cached) where
  __ := throughCache source
  supplies s s' := s.cache.Alike s'.cache ∧ s'.hits = s.hits ∧ s'.fetches = s.fetches
  same := by
    rintro s s' ⟨hcache, -, -⟩ id
    have hget := hcache.get? id
    unfold Supplier.reread DefinitionSource.cached
    generalize s.cache.get? id = known at hget
    generalize s'.cache.get? id = known' at hget
    cases hget with
    | none => exact (h.answer id).representative_eq
    | some hknown => exact hknown.representative_eq
  supplies_next := by
    rintro s s' ⟨hcache, hhits, hfetches⟩ id
    have hget := hcache.get? id
    unfold Supplier.reread DefinitionSource.cached
    generalize s.cache.get? id = known at hget
    generalize s'.cache.get? id = known' at hget
    cases hget with
    -- what is asked for is put into both caches under the same identity
    | none => exact ⟨hcache.set id (h.answer id), hhits, congrArg (· + 1) hfetches⟩
    | some _ => exact ⟨hcache, congrArg (· + 1) hhits, hfetches⟩

/-! ## Sessions -/

/-- Sessions that have asked the store for the same, and have got what says the same. -/
structure Session.Alike (s s' : Session) : Prop where
  cache : s.cache.Alike s'.cache
  fetches : s'.fetches = s.fetches

/-- Calls that give the same results and graphs, and leave sessions that are alike. -/
structure Resolution.Alike (r r' : Resolution) : Prop where
  result : r'.result = r.result
  graph : r'.graph = r.graph
  session : r.session.Alike r'.session

/-- Expansions that correspond in this way give the same. -/
theorem resolution_alike {source source' : DefinitionSource} {h : source.Alike source'}
    {o o' : Outcome} (hagree : (respelled h).Agree o o') {fetches fetches' : Nat}
    (hfetches : fetches' = fetches) : (o.resolution fetches).Alike (o'.resolution fetches') := by
  obtain ⟨r, p⟩ := o
  obtain ⟨r', q⟩ := o'
  obtain ⟨hends, hmirrors⟩ := hagree
  obtain ⟨hcache, hhits, hasked⟩ := hmirrors.supply
  obtain ⟨hgraph, haddedNodes, haddedEdges⟩ :
      q.graph = p.graph ∧ q.addedNodes = p.addedNodes ∧ q.addedEdges = p.addedEdges :=
    hmirrors.eq_of_rename_id rfl Eq.symm
  have hmisses : q.misses = p.misses := hmirrors.misses
  have hhits' : q.hits = p.hits := hhits
  have hasked' : q.fetches = p.fetches := hasked
  have hsession : Session.Alike ⟨p.cache, fetches + p.fetches⟩ ⟨q.cache, fetches' + q.fetches⟩ :=
    ⟨hcache, by simp only [hfetches, hasked']⟩
  -- both expansions end in the same way: rolled back after a failure, reported otherwise
  cases hends
  cases r with
  | error e =>
    refine ⟨rfl, ?_, hsession⟩
    simp only [Outcome.resolution, rollBack, hgraph, haddedNodes, haddedEdges]
  | ok _ =>
    refine ⟨?_, hgraph, hsession⟩
    simp only [Outcome.resolution, report, haddedNodes, haddedEdges, hmisses, hhits', hasked']

namespace Session

variable {s s' : Session}

/-- Expansions have the same number of levels, as it is found from the fragments of all definitions
at hand. -/
theorem Alike.levels_eq (hs : s.Alike s') (h : sources.Alike sources') (f : Fragment) :
    s'.levels sources' f = s.levels sources f := by
  have hreachable : List.Forall₂ Tree.Alike (s.reachable sources) (s'.reachable sources') :=
    List.rel_append hs.cache.values h.definitions.documents
  -- what is referred to is found in fragments, and these are the same one by one
  have hmodels : (s'.reachable sources').flatMap (fun d => (Fragment.ofDocument d).models) =
      (s.reachable sources).flatMap fun d => (Fragment.ofDocument d).models := by
    generalize s.reachable sources = ds at hreachable
    generalize s'.reachable sources' = ds' at hreachable
    induction hreachable with
    | nil => rfl
    | cons hfirst _ ih => rw [List.flatMap_cons, List.flatMap_cons, hfirst.fragment, ih]
  rw [levels, levels, hmodels]

/-- **Definitions that say the same are resolved into the same.** -/
theorem Alike.resolveWithin (hs : s.Alike s') (h : sources.Alike sources') (path : List ComponentId)
    (g : Graph) {d d' : Tree} (hd : Fragment.ofDocument d' = Fragment.ofDocument d) (pre : String) :
    (s.resolveWithin sources path g d pre).Alike (s'.resolveWithin sources' path g d' pre) := by
  rw [resolveWithin_eq_resolution, resolveWithin_eq_resolution, hd]
  refine resolution_alike (h := h.definitions) ?_ hs.fetches
  rw [run, run, hs.levels_eq h, expand, expand, h.library,
    ← expandWith_reread Tree.alike_representative sources.definitions.cached,
    ← expandWith_reread Tree.alike_representative sources'.definitions.cached]
  -- the same graph and no additions: the runs begin alike
  have hstart : (respelled h.definitions).Mirrors { graph := g, cache := s.cache }
      { graph := g, cache := s'.cache } :=
    ⟨(List.map_id _).symm, (List.map_id _).symm, rfl, rfl, rfl, rfl, hs.cache, rfl, rfl⟩
  exact expandWith_agree sources.library _ path d pre pre _ _ rfl hstart

/-- A call on sessions that are alike gives the same result and the same graph, and leaves sessions
that are alike. -/
theorem Alike.perform (hs : s.Alike s') (h : sources.Alike sources') (call : Call) :
    (s.perform sources call).Alike (s'.perform sources' call) := by
  cases call with
  | resolve g document pre => exact hs.resolveWithin h [] g rfl pre
  | convert view definition =>
    show (s.convert sources view definition).Alike (s'.convert sources' view definition)
    unfold Session.convert
    split
    -- clearing empties both caches, whatever they held
    · have hclear : s.clear.Alike s'.clear := ⟨.refl _, hs.fetches⟩
      exact hclear.resolveWithin h _ view.graph rfl ""
    · exact ⟨rfl, rfl, hs⟩

/-- After the same calls, sessions are still alike. -/
theorem Alike.after (hs : s.Alike s') (h : sources.Alike sources') (calls : List Call) :
    (s.after sources calls).Alike (s'.after sources' calls) := by
  induction calls generalizing s s' with
  | nil => exact hs
  | cons call rest ih => exact ih (hs.perform h call).session

end Session

end ModelGraph
