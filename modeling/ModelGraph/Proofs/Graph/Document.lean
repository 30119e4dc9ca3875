import ModelGraph.Graph.Document
import ModelGraph.Proofs.Document.Records
import ModelGraph.Proofs.Graph.Changes

/-!
# Records of graph documents

The readers of positions, ports, nodes, edges and graphs give back what was written. The fields of a
record are written in the order in which its reader lists them, so a draft is known by the number of
fields that have been read into it.

- `Port.draft`, `Node.draft`, `Edge.draft` and their like: drafts that are read in part.
- `Port.restores`, `Node.restores`, `Edge.restores` and their like: the records.
- `Graph.restores`: the nodes and the edges of a graph.
-/

namespace ModelGraph

open Document

/-! ## Records -/

/-- A field of a draft that is read as the one with the given number. Before its turn it is not
there, and afterwards it has its value. -/
def upTo {α : Type} (count number : Nat) (value : Option α) : Option α :=
  if number < count then value else none

/-- What has been read of a position when some of its fields have been. -/
def Position.draft (p : Position) (count : Nat) : Position.Draft :=
  ⟨upTo count 0 (some p.x), upTo count 1 (some p.y)⟩

/-- What has been read of a port when some of its fields have been. -/
def Port.draft (p : Port) (count : Nat) : Port.Draft where
  name := upTo count 0 (some p.name)
  interface := upTo count 1 (p.interface.map some)
  exportName := upTo count 2 (p.exportName.map some)
  initial := upTo count 3 (p.initial.map some)
  defaultConfig := upTo count 4 (p.defaultConfig.map some)

/-- What has been read of a node when some of its fields have been. -/
def Node.draft (n : Node) (count : Nat) : Node.Draft where
  name := upTo count 0 (some n.name)
  domain := upTo count 1 (some n.domain)
  typeName := upTo count 2 (some n.typeName)
  modelName := upTo count 3 (some n.modelName)
  version := upTo count 4 (some n.version)
  inputs := upTo count 5 (some n.inputs)
  outputs := upTo count 6 (some n.outputs)
  data := upTo count 7 (n.data.map some)
  parentName := upTo count 8 (n.parentName.map some)
  position := upTo count 9 (n.position.map some)

/-- What has been read of an edge when some of its fields have been. -/
def Edge.draft (e : Edge) (count : Nat) : Edge.Draft where
  fromNode := upTo count 0 (some e.ends.fromNode)
  fromPort := upTo count 1 (some e.ends.fromPort)
  toNode := upTo count 2 (some e.ends.toNode)
  toPort := upTo count 3 (some e.ends.toPort)
  weight := upTo count 4 (some e.weight)
  smooth := upTo count 5 (some e.smooth)
  transport := upTo count 6 (e.transport.map some)
  dataType := upTo count 7 (e.dataType.map some)
  size := upTo count 8 (e.size.map some)
  vertices := upTo count 9 (e.vertices.map some)
  decoupledVertices := upTo count 10 (e.decoupledVertices.map some)

/-- What has been read of a graph when some of its parts have been. -/
def Graph.draft (g : Graph) (count : Nat) : Graph.Draft :=
  ⟨upTo count 0 (some g.nodes), upTo count 1 (some g.edges)⟩

/-- A field that is left out when it is absent is absent when it is not found. -/
theorem getD_map_some {α : Type} (value : Option α) : (value.map some).getD none = value := by
  cases value <;> rfl

section

variable {σ : Type} {c : Context σ} {leaf : Scalar → σ} {ok : Scalar → Prop}
variable (hformat : Faithful c.format leaf ok)

include hformat

/-- A position is read back from its document. -/
theorem Position.restores (p : Position) :
    Restores c leaf ok (c.record (Position.reader c)) p p.toTree := by
  have hnames : ((Position.reader c).fields.map FieldReader.name).Nodup := by
    simp [Position.reader, field]
  refine restores_record hformat hnames (d := p.draft 2) ?_ rfl
  show Fills c leaf ok (Position.reader c).fields _ (p.draft 0) (p.draft 2)
  refine .field (restores_float hformat p.x) rfl rfl ?_
  exact .field (restores_float hformat p.y) rfl rfl (.nil _)

/-- A port is read back from its document, with the optional fields that it has. The draft after
each field is told by the number of fields that have been read. -/
theorem Port.restores (p : Port) : Restores c leaf ok (c.record (Port.reader c)) p p.toTree := by
  have hnames : ((Port.reader c).fields.map FieldReader.name).Nodup := by
    simp [Port.reader, field]
  have hfinish : (Port.reader c).finish (p.draft 5) = some p := by
    simp only [Port.reader, draft, upTo]
    simp [getD_map_some]
  refine restores_record hformat hnames ?_ hfinish
  show Fills c leaf ok (Port.reader c).fields _ (p.draft 0) (p.draft 5)
  simp only [List.append_assoc, List.cons_append, List.nil_append]
  -- one step for each field, in the order in which they are written
  refine .field (restores_text hformat p.name) rfl rfl ?_
  refine .optional hformat (restores_integer hformat) rfl
    (by unfold draft; cases p.interface <;> rfl) ?_
  refine .optional hformat (restores_text hformat) rfl
    (by unfold draft; cases p.exportName <;> rfl) ?_
  refine .optional hformat (restores_tree hformat) rfl
    (by unfold draft; cases p.initial <;> rfl) ?_
  exact .optional_last hformat (restores_text hformat) rfl
    (by unfold draft; cases p.defaultConfig <;> rfl)

/-- A node is read back from its document, with its ports and its data. Fields that were left out
are absent in the draft, which is their default. -/
theorem Node.restores (n : Node) : Restores c leaf ok (c.record (Node.reader c)) n n.toTree := by
  have hnames : ((Node.reader c).fields.map FieldReader.name).Nodup := by
    simp [Node.reader, field]
  have hfinish : (Node.reader c).finish (n.draft 10) = some n := by
    simp only [Node.reader, draft, upTo]
    simp [getD_map_some]
  -- both lists of ports are read alike
  have hports : ∀ ports : List Port,
      Restores c leaf ok (c.list (c.record (Port.reader c))) ports (.seq (ports.map Port.toTree)) :=
    fun ports => restores_list fun p _ => Port.restores hformat p
  refine restores_record hformat hnames ?_ hfinish
  show Fills c leaf ok (Node.reader c).fields _ (n.draft 0) (n.draft 10)
  simp only [List.append_assoc, List.cons_append, List.nil_append]
  -- one step for each field, in the order in which they are written
  refine .field (restores_text hformat n.name) rfl rfl ?_
  refine .field (restores_text hformat n.domain) rfl rfl ?_
  refine .field (restores_text hformat n.typeName) rfl rfl ?_
  refine .field (restores_text hformat n.modelName) rfl rfl ?_
  refine .field (restores_text hformat n.version) rfl rfl ?_
  refine .field (hports n.inputs) rfl rfl ?_
  refine .field (hports n.outputs) rfl rfl ?_
  refine .optional hformat (restores_tree hformat) rfl (by unfold draft; cases n.data <;> rfl) ?_
  refine .optional hformat (restores_text hformat) rfl
    (by unfold draft; cases n.parentName <;> rfl) ?_
  exact .optional_last hformat (Position.restores hformat) rfl
    (by unfold draft; cases n.position <;> rfl)

/-- An edge is read back from its document, with the trees that it carries. Its four ends are always
written. -/
theorem Edge.restores (e : Edge) : Restores c leaf ok (c.record (Edge.reader c)) e e.toTree := by
  have hnames : ((Edge.reader c).fields.map FieldReader.name).Nodup := by
    simp [Edge.reader, field]
  have hfinish : (Edge.reader c).finish (e.draft 11) = some e := by
    simp only [Edge.reader, draft, upTo]
    simp [getD_map_some]
  refine restores_record hformat hnames ?_ hfinish
  show Fills c leaf ok (Edge.reader c).fields _ (e.draft 0) (e.draft 11)
  simp only [List.append_assoc, List.cons_append, List.nil_append]
  -- one step for each field, in the order in which they are written
  refine .field (restores_text hformat e.ends.fromNode) rfl rfl ?_
  refine .field (restores_text hformat e.ends.fromPort) rfl rfl ?_
  refine .field (restores_text hformat e.ends.toNode) rfl rfl ?_
  refine .field (restores_text hformat e.ends.toPort) rfl rfl ?_
  refine .field (restores_float hformat e.weight) rfl rfl ?_
  refine .field (restores_bool hformat e.smooth) rfl rfl ?_
  refine .optional hformat (restores_tree hformat) rfl
    (by unfold draft; cases e.transport <;> rfl) ?_
  refine .optional hformat (restores_tree hformat) rfl
    (by unfold draft; cases e.dataType <;> rfl) ?_
  refine .optional hformat (restores_tree hformat) rfl (by unfold draft; cases e.size <;> rfl) ?_
  refine .optional hformat (restores_tree hformat) rfl
    (by unfold draft; cases e.vertices <;> rfl) ?_
  exact .optional_last hformat (restores_tree hformat) rfl
    (by unfold draft; cases e.decoupledVertices <;> rfl)

/-- **The nodes and the edges of a graph are read back from its document**, from any format that is
faithful. -/
theorem Graph.restores (g : Graph) :
    Restores c leaf ok (c.record (Graph.reader c)) (g.nodes, g.edges) g.toTree := by
  have hnames : ((Graph.reader c).fields.map FieldReader.name).Nodup := by
    simp [Graph.reader, field]
  refine restores_record hformat hnames (d := g.draft 2) ?_ rfl
  show Fills c leaf ok (Graph.reader c).fields _ (g.draft 0) (g.draft 2)
  refine .field (restores_list fun n _ => Node.restores hformat n) rfl rfl ?_
  exact .field (restores_list fun e _ => Edge.restores hformat e) rfl rfl (.nil _)

end

end ModelGraph
