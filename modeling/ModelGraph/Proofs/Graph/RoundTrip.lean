import ModelGraph.Proofs.Graph.Document
import ModelGraph.Proofs.Graph.Parts
import ModelGraph.Proofs.Json.Events
import ModelGraph.Proofs.Yaml.RoundTrip

/-!
# Graphs read back from their documents

A graph is read back from its YAML text and from its JSON text, apart from its registered types,
which are no part of a document.

- `Graph.trees`, `Graph.numbers`: what a document holds besides texts.
- `Graph.Storable`: what is asked of both.
- `Graph.ofParts_of_wellFormed`: nodes and edges make up a graph again.
- `Graph.documents_read_back`: both formats give the graph back.
-/

namespace ModelGraph

open Document (treeEvents)

/-! ## Contents -/

/-- A leaf that is read back from both formats. Texts, integers and truth values always are; for the
numbers it is what each format asks for. -/
def Writable (v : Scalar) : Prop := Yaml.Readable v ∧ Json.Readable v

/-- Texts are always read back. -/
@[simp]
theorem writable_text (s : String) : Writable (.text s) := ⟨trivial, trivial⟩

/-- So are signed integers. -/
@[simp]
theorem writable_int (i : Int64) : Writable (.int i) := ⟨trivial, trivial⟩

/-- So are truth values. -/
@[simp]
theorem writable_bool (b : Bool) : Writable (.bool b) := ⟨trivial, trivial⟩

/-- The numbers that place a node. -/
def Node.numbers (n : Node) : List Binary64 := n.position.toList.flatMap fun p => [p.x, p.y]

/-- The tree in a port. -/
def Port.trees (p : Port) : List Tree := p.initial.toList

/-- The trees in a node. -/
def Node.trees (n : Node) : List Tree :=
  n.inputs.flatMap Port.trees ++ n.outputs.flatMap Port.trees ++ n.data.toList

/-- The trees in an edge. -/
def Edge.trees (e : Edge) : List Tree :=
  e.transport.toList ++ e.dataType.toList ++ e.size.toList ++ e.vertices.toList ++
    e.decoupledVertices.toList

/-- The numbers of a graph outside of its trees. -/
def Graph.numbers (g : Graph) : List Binary64 :=
  g.nodes.flatMap Node.numbers ++ g.edges.map Edge.weight

/-- The trees in a graph. -/
def Graph.trees (g : Graph) : List Tree := g.nodes.flatMap Node.trees ++ g.edges.flatMap Edge.trees

/-- The graph can be kept in a text of either format: the numbers that it has itself, and all the
trees that it takes from elsewhere. -/
structure Graph.Storable (g : Graph) : Prop where
  numbers : ∀ x ∈ g.numbers, Writable (.float x)
  trees : ∀ t ∈ g.trees, t.Storable Writable

/-- An optional field has an entry only if its value is there. -/
theorem forall_mem_optionalField {α : Type} {P : String × Tree → Prop} {name : String}
    {document : α → Tree} {value : Option α} :
    (∀ e ∈ Tree.optionalField name document value, P e) ↔ ∀ a ∈ value, P (name, document a) := by
  cases value <;> simp [Tree.optionalField]

/-- It has its key at most. -/
theorem keys_optionalField {α : Type} (name : String) (document : α → Tree) (value : Option α) :
    ((Tree.optionalField name document value).map Prod.fst).Sublist [name] := by
  cases value <;> simp [Tree.optionalField]

/-- A position can be kept in a text if its numbers can. -/
theorem Position.storable {p : Position} (hx : Writable (.float p.x)) (hy : Writable (.float p.y)) :
    p.toTree.Storable Writable := by
  rw [toTree, Tree.storable_map]
  simp [Tree.float, hx, hy]

/-- A port can be kept in a text if its initial value can. -/
theorem Port.storable {p : Port} (h : ∀ t ∈ p.trees, t.Storable Writable) :
    p.toTree.Storable Writable := by
  rw [toTree, Tree.storable_map]
  constructor
  · simp only [List.map_append, List.map_cons, List.map_nil]
    -- leaving a field out leaves its key out, and all keys together are distinct
    refine List.Nodup.sublist (((((List.Sublist.refl _).append (keys_optionalField _ _ _)).append
      (keys_optionalField _ _ _)).append (keys_optionalField _ _ _)).append
        (keys_optionalField _ _ _)) ?_
    simp
  · simp only [List.forall_mem_append, List.forall_mem_singleton, forall_mem_optionalField]
    have hinitial : ∀ t ∈ p.initial, t.Storable Writable :=
      fun t ht => h t (Option.mem_toList.mpr ht)
    simpa [Tree.text] using hinitial

/-- A node can be kept in a text if its numbers, its data and the trees of its ports can. -/
theorem Node.storable {n : Node} (hnumbers : ∀ x ∈ n.numbers, Writable (.float x))
    (htrees : ∀ t ∈ n.trees, t.Storable Writable) : n.toTree.Storable Writable := by
  simp only [trees, List.forall_mem_append, List.forall_mem_flatMap, Option.mem_toList] at htrees
  obtain ⟨⟨hinputs, houtputs⟩, hdata⟩ := htrees
  have hports : ∀ ports : List Port, (∀ p ∈ ports, ∀ t ∈ p.trees, t.Storable Writable) →
      (Tree.seq (ports.map Port.toTree)).Storable Writable := by
    intro ports h
    rw [Tree.storable_seq, List.forall_mem_map]
    exact fun p hp => Port.storable (h p hp)
  have hposition : ∀ p ∈ n.position, p.toTree.Storable Writable := by
    intro p hp
    have hboth : ∀ x ∈ [p.x, p.y], Writable (.float x) := fun x hx =>
      hnumbers x (List.mem_flatMap.mpr ⟨p, Option.mem_toList.mpr hp, hx⟩)
    exact Position.storable (hboth p.x (by simp)) (hboth p.y (by simp))
  rw [toTree, Tree.storable_map]
  constructor
  · -- a field that is left out takes its key with it, so the keys of the full record are enough
    simp only [List.map_append, List.map_cons, List.map_nil]
    refine List.Nodup.sublist ((((List.Sublist.refl _).append (keys_optionalField _ _ _)).append
      (keys_optionalField _ _ _)).append (keys_optionalField _ _ _)) ?_
    simp
  · simp only [List.forall_mem_append, List.forall_mem_cons, forall_mem_optionalField]
    simpa [Tree.text, hports n.inputs hinputs, hports n.outputs houtputs] using ⟨hdata, hposition⟩

/-- An edge can be kept in a text if its weight and its trees can. -/
theorem Edge.storable {e : Edge} (hweight : Writable (.float e.weight))
    (htrees : ∀ t ∈ e.trees, t.Storable Writable) : e.toTree.Storable Writable := by
  simp only [trees, List.forall_mem_append, Option.mem_toList] at htrees
  rw [toTree, Tree.storable_map]
  -- optional fields are left out or come in their order, as those of nodes do
  constructor
  · simp only [List.map_append, List.map_cons, List.map_nil]
    refine List.Nodup.sublist ((((((List.Sublist.refl _).append (keys_optionalField _ _ _)).append
      (keys_optionalField _ _ _)).append (keys_optionalField _ _ _)).append
      (keys_optionalField _ _ _)).append (keys_optionalField _ _ _)) ?_
    simp
  · simp only [List.forall_mem_append, List.forall_mem_cons, forall_mem_optionalField]
    simpa [Tree.text, Tree.float, Tree.bool, hweight] using htrees

/-- The document of a graph can be kept in a text if its numbers and its trees can. -/
theorem Graph.Storable.toTree {g : Graph} (h : g.Storable) : g.toTree.Storable Writable := by
  have hnumbers := h.numbers
  have htrees := h.trees
  simp only [Graph.numbers, List.forall_mem_append, List.forall_mem_flatMap,
    List.forall_mem_map] at hnumbers
  simp only [Graph.trees, List.forall_mem_append, List.forall_mem_flatMap] at htrees
  -- the two lists of the document, each with what its parts hold
  have hnodes : (Tree.seq (g.nodes.map Node.toTree)).Storable Writable := by
    rw [Tree.storable_seq, List.forall_mem_map]
    exact fun n hn => Node.storable (hnumbers.1 n hn) (htrees.1 n hn)
  have hedges : (Tree.seq (g.edges.map Edge.toTree)).Storable Writable := by
    rw [Tree.storable_seq, List.forall_mem_map]
    exact fun e he => Edge.storable (hnumbers.2 e he) (htrees.2 e he)
  rw [Graph.toTree, Tree.storable_map]
  exact ⟨by simp, List.forall_mem_cons.mpr ⟨hnodes, List.forall_mem_singleton.mpr hedges⟩⟩

/-! ## Graphs -/

namespace Graph

/-- Nodes with distinct names and edges with distinct ends make up a graph. -/
theorem ofParts_of_wellFormed {g : Graph} (h : g.WellFormed) :
    ofParts g.nodes g.edges = .ok { g with types := OrderedMap.empty } :=
  ofParts_eq_ok_iff.mpr ⟨h.1, h.2, rfl⟩

/-- The graph of a document that is read to its end. -/
theorem ofDocument_eq_ok {σ : Type} {c : Document.Context σ} {g : Graph} (h : g.WellFormed)
    (hrun : c.run (c.record (reader c)) = .ok (g.nodes, g.edges))
    (fault : Document.Fault → DocumentError) :
    ofDocument c fault = .ok { g with types := OrderedMap.empty } := by
  rw [ofDocument, hrun]
  exact ofParts_of_wellFormed h

/-- **A graph is read back from its documents in both formats.** Nodes and edges come back in their
order with all their fields: what is present stays present, also an empty text or a blank tree, and
what is absent stays absent. Registered types are no part of a document. -/
theorem documents_read_back {g : Graph} (hgraph : g.WellFormed) (hstorable : g.Storable)
    (hdepth : g.toTree.height ≤ 127) :
    ofYaml g.toYaml = .ok { g with types := OrderedMap.empty } ∧
      ofJson g.toJson = .ok { g with types := OrderedMap.empty } := by
  have hyaml : g.toTree.Storable Yaml.Readable := hstorable.toTree.imp fun _ h => h.1
  have hjson : g.toTree.Storable Json.Readable := hstorable.toTree.imp fun _ h => h.2
  -- the formats differ in their sources and leaves only; the record reader is the same
  have hyamlContext : Yaml.context g.toYaml =
      ⟨Yaml.format, ⟨treeEvents Yaml.writtenLeaf g.toTree, [], false⟩⟩ := by
    rw [Yaml.context, toYaml, Yaml.source_render]
  have hjsonContext : Json.context g.toJson =
      ⟨Json.format, ⟨treeEvents Json.writtenLeaf g.toTree, [], false⟩⟩ := by
    rw [Json.context, toJson, Json.source_render hjson.leaves]
  constructor
  · rw [ofYaml, hyamlContext]
    refine ofDocument_eq_ok hgraph ?_ .yaml
    exact (Graph.restores Yaml.faithful g).run rfl hyaml (Nat.le_succ_of_le hdepth)
  · rw [ofJson, hjsonContext]
    refine ofDocument_eq_ok hgraph ?_ .json
    exact (Graph.restores Json.faithful g).run rfl hjson hdepth

/-- Present texts and trees that are blank or look like nothing, next to absent ones. -/
def blankGraph : Graph where
  nodes := [
    { name := "a: 1", typeName := "null", modelName := "~", version := "1.0"
      inputs := [{ name := "true", interface := some (-1), exportName := some "",
                   initial := some (.text ""), defaultConfig := some "" }]
      outputs := [Port.named " out"]
      data := some (.map ⟨[("", .text "null"),
        ("1e3", .seq [.float (.finite false 7205759403792794 (-56)),
        .scalar (.wide 9223372036854775808), .map ⟨[]⟩])]⟩)
      parentName := some ""
      position :=
        some ⟨.finite false 4503599627370496 (-53), .finite true 4503599627370496 (-52)⟩ },
    Node.ofType "b" "" ""]
  edges := [
    { ends := ⟨"a: 1", " out", "b", "in\n"⟩, smooth := true, transport := some (.text ""),
      dataType := some (.text "~"), size := some (.seq []), vertices := some (.map ⟨[]⟩) }]
  types := ⟨[(terminalType, NodeType.terminal)]⟩

/-- Nothing of it gets lost in either format, neither what is blank nor what looks like something
else. -/
theorem blankGraph_read_back : blankGraph.WellFormed ∧ blankGraph.Storable ∧
    blankGraph.toTree.height ≤ 127 ∧
    ofYaml blankGraph.toYaml = .ok { blankGraph with types := OrderedMap.empty } ∧
    ofJson blankGraph.toJson = .ok { blankGraph with types := OrderedMap.empty } := by
  -- a number in a graph must be read back by each of the two formats
  have writable : ∀ (x : Binary64) (n : Json.Numeral), x.isFinite = true → Yaml.ReadsBack x →
      Json.numeral? (Json.floatLayout.text x) = some (n, []) → n.scalar? = some (.float x) →
      Writable (.float x) :=
    fun x n hfinite hyaml htext hvalue => ⟨fun _ => hyaml, hfinite, n, htext, hvalue⟩
  have hone : Writable (.float unitWeight) :=
    writable _ ⟨false, ['1'], some ['0'], none⟩ rfl (by unfold Yaml.ReadsBack; decide +kernel)
      (by decide +kernel) (by decide +kernel)
  have htenth : Writable (.float (.finite false 7205759403792794 (-56))) :=
    writable _ ⟨false, ['0'], some ['1'], none⟩ rfl (by unfold Yaml.ReadsBack; decide +kernel)
      (by decide +kernel) (by decide +kernel)
  have hhalf : Writable (.float (.finite false 4503599627370496 (-53))) :=
    writable _ ⟨false, ['0'], some ['5'], none⟩ rfl (by unfold Yaml.ReadsBack; decide +kernel)
      (by decide +kernel) (by decide +kernel)
  have hminus : Writable (.float (.finite true 4503599627370496 (-52))) :=
    writable _ ⟨true, ['1'], some ['0'], none⟩ rfl (by unfold Yaml.ReadsBack; decide +kernel)
      (by decide +kernel) (by decide +kernel)
  have hbeyond : Nat.pow 2 63 ≤ (9223372036854775808 : UInt64).toNat := by decide
  have hwide : Writable (.wide 9223372036854775808) := ⟨hbeyond, hbeyond⟩
  have hgraph : blankGraph.WellFormed := by
    simp [WellFormed, blankGraph, Node.ofType]
  have hstorable : blankGraph.Storable := by
    constructor
    · simp [numbers, blankGraph, Node.numbers, Node.ofType, hone, hhalf, hminus]
    · simp [trees, blankGraph, Node.trees, Edge.trees, Port.trees, Port.named, Node.ofType,
        Tree.text, Tree.float, htenth, hwide]
  have hdepth : blankGraph.toTree.height ≤ 127 := by decide +kernel
  obtain ⟨hyaml, hjson⟩ := documents_read_back hgraph hstorable hdepth
  exact ⟨hgraph, hstorable, hdepth, hyaml, hjson⟩

end Graph
end ModelGraph
