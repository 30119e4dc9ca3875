import ModelGraph.Proofs.Resolution.Correspondence
import ModelGraph.Proofs.Resolution.Expansion
import ModelGraph.Proofs.Resolution.Journal

/-!
# Resolution under a prefix

A prefix is put before the name of every node, and it changes nothing else. The empty prefix is a
special case of how names are built, and names decide what an expansion adds: a node is not added
where there is one with its name. But no two different names become the same under a prefix.

- `underPrefix`: an expansion under a prefix and the one under the empty prefix correspond.
- `resolve_prefix_equivariant`: what this means for calls.
-/

namespace ModelGraph

open Progress

/-! ## Names -/

/-- A name under an inner prefix, with another prefix around it. -/
theorem prefixed_append {pre inner : String} (hpre : pre ≠ "") (hinner : inner ≠ "")
    (name : String) : prefixed (pre ++ "_" ++ inner) name = pre ++ "_" ++ prefixed inner name := by
  have houter : pre ++ "_" ++ inner ≠ "" := append_ne_empty (append_ne_empty hpre)
  rw [prefixed_of_ne_empty houter, prefixed_of_ne_empty hinner]
  simp only [String.append_assoc]

/-- No two names become the same under a prefix. -/
theorem under_injective (pre : String) : Function.Injective fun name => pre ++ "_" ++ name :=
  fun _ _ h => String.append_right_inj (pre ++ "_") |>.mp h

/-- An expansion under a prefix that is not empty corresponds to the one under the empty prefix.
Inside of it both prefixes grow by the same names. -/
def underPrefix (supplier : Supplier) {pre : String} (hpre : pre ≠ "") :
    Correspondence supplier supplier where
  rename name := pre ++ "_" ++ name
  prefixes inner inner' := inner = "" ∧ inner' = pre ∨ inner ≠ "" ∧ inner' = pre ++ "_" ++ inner
  types m m' := ∀ name, m'.get? name = m.get? name
  supplies := Eq
  rename_injective := under_injective pre
  prefixed_eq := by
    rintro inner inner' (⟨rfl, rfl⟩ | ⟨hinner, rfl⟩) name
    -- at the outermost level the prefix stands alone, and further in it stands in front
    · rw [prefixed_of_ne_empty hpre, prefixed_empty]
    · exact prefixed_append hpre hinner name
  prefixes_inner := by
    rintro inner inner' (⟨rfl, rfl⟩ | ⟨hinner, rfl⟩) name hname
    · exact .inr ⟨hname, prefixed_of_ne_empty hpre name⟩
    · exact .inr ⟨prefixed_ne_empty (.inl hinner), prefixed_append hpre hinner name⟩
  types_get? h := h
  types_insert h name t key := by rw [OrderedMap.get?_insert, OrderedMap.get?_insert, h key]
  same h id := by rw [h]
  supplies_next h id := by rw [h]

/-! ## Calls -/

/-- Where both have asked for the same definitions, both report the same. -/
theorem Correspondence.Mirrors.report {supplier supplier' : Supplier}
    {c : Correspondence supplier supplier'} {p q : Progress} (h : c.Mirrors p q)
    (hsupply : q.supply = p.supply) : q.report = p.report := by
  have hhits : q.hits = p.hits := congrArg Supply.hits hsupply
  have hfetches : q.fetches = p.fetches := congrArg Supply.fetches hsupply
  simp [Progress.report, h.addedNodes, h.addedEdges, h.misses, hhits, hfetches]

/-- Where there were no nodes and no edges, there are none after a failure. -/
theorem rollBack_bare (s : Session) (sources : Sources) (path : List ComponentId) {g : Graph}
    (f : Fragment) (pre : String) (hnodes : g.nodes = []) (hedges : g.edges = []) :
    (s.run sources path g f pre).2.rollBack =
      { (s.run sources path g f pre).2.graph with nodes := [], edges := [] } := by
  obtain ⟨nodes, edges, hjournal⟩ := s.run_journal sources path g f pre
  rw [rollBack_eq hjournal, hnodes, hedges]
  rfl

/-- **Resolution is equivariant in the prefix.** Let two graphs have no nodes and no edges and the
same registered types. Under a prefix a fragment has the same result as under the empty prefix, the
same error or the same report, with the same session and the same registered types afterwards. The
nodes and the edges are the same, in the same order, with the prefix put before the names of all
nodes. -/
theorem resolve_prefix_equivariant (s : Session) (sources : Sources) (g g' : Graph)
    (document : Tree) (pre : String) (hpre : pre ≠ "") (hnodes : g.nodes = [])
    (hedges : g.edges = []) (hnodes' : g'.nodes = []) (hedges' : g'.edges = [])
    (htypes : ∀ name, g'.nodeType? name = g.nodeType? name) :
    let plain := s.resolve sources g document ""
    let under := s.resolve sources g' document pre
    under.result = plain.result ∧ under.session = plain.session ∧
      (∀ name, under.graph.nodeType? name = plain.graph.nodeType? name) ∧
      under.graph.nodes = plain.graph.nodes.map (Node.renamed fun name => pre ++ "_" ++ name) ∧
      under.graph.edges = plain.graph.edges.map (Edge.renamed fun name => pre ++ "_" ++ name) := by
  intro plain under
  let c := underPrefix sources.definitions.cached hpre
  let f := Fragment.ofDocument document
  have hstart : c.Mirrors { graph := g, cache := s.cache } { graph := g', cache := s.cache } :=
    ⟨by simp [hnodes, hnodes'], by simp [hedges, hedges'], htypes, rfl, rfl, rfl, rfl⟩
  have hagree : c.Agree (s.run sources [] g f "") (s.run sources [] g' f pre) := by
    simp only [Session.run, expand]
    exact expandWith_agree sources.library _ [] document "" pre _ _ (.inl ⟨rfl, rfl⟩) hstart
  rcases hrun : s.run sources [] g f "" with ⟨r, p⟩
  rcases hrun' : s.run sources [] g' f pre with ⟨r', q⟩
  rw [hrun, hrun'] at hagree
  obtain ⟨hends, hmirrors⟩ := hagree
  have hcache : q.cache = p.cache := congrArg Supply.cache hmirrors.supply.symm
  have hfetches : q.fetches = p.fetches := congrArg Supply.fetches hmirrors.supply.symm
  cases hends
  cases r with
  | ok _ =>
    have hplain : plain = ⟨.ok p.report, p.graph, ⟨p.cache, s.fetches + p.fetches⟩⟩ :=
      resolveWithin_of_run hrun
    have hunder : under = ⟨.ok q.report, q.graph, ⟨q.cache, s.fetches + q.fetches⟩⟩ :=
      resolveWithin_of_run hrun'
    rw [hplain, hunder, hmirrors.report hmirrors.supply.symm, hcache, hfetches]
    exact ⟨rfl, rfl, hmirrors.types, hmirrors.nodes, hmirrors.edges⟩
  | error e =>
    -- all that has been added is taken back, and there was nothing before
    have hrolled := rollBack_bare s sources [] f "" hnodes hedges
    have hrolled' := rollBack_bare s sources [] f pre hnodes' hedges'
    rw [hrun] at hrolled
    rw [hrun'] at hrolled'
    have hplain : plain = ⟨.error e, p.rollBack, ⟨p.cache, s.fetches + p.fetches⟩⟩ :=
      resolveWithin_of_failure hrun
    have hunder : under = ⟨.error e, q.rollBack, ⟨q.cache, s.fetches + q.fetches⟩⟩ :=
      resolveWithin_of_failure hrun'
    rw [hplain, hunder, hrolled, hrolled', hcache, hfetches]
    exact ⟨rfl, rfl, hmirrors.types, rfl, rfl⟩

set_option maxRecDepth 10000 in
/-- The two legs of a robot have the same nodes and edges as two legs of their own, with the name of
the robot before all names. -/
theorem twoLegs_under_robot :
    let plain := Session.fresh.resolve legSources Graph.empty twoLegs ""
    let under := Session.fresh.resolve legSources Graph.empty twoLegs "robot"
    under.result = .ok ⟨6, 2, 0, 1, 1⟩ ∧ under.result = plain.result ∧
      under.graph.nodes = plain.graph.nodes.map (Node.renamed fun name => "robot" ++ "_" ++ name) ∧
      under.graph.edges =
        plain.graph.edges.map (Edge.renamed fun name => "robot" ++ "_" ++ name) := by
  intro plain under
  obtain ⟨hresult, -, -, hnodes, hedges⟩ := resolve_prefix_equivariant Session.fresh legSources
    Graph.empty Graph.empty twoLegs "robot" (by decide) rfl rfl rfl rfl (fun _ => rfl)
  exact ⟨eq_ok_of_toOption (by decide +kernel), hresult, hnodes, hedges⟩

end ModelGraph
