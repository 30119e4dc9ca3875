import ModelGraph.Proofs.Graph.Representation
import ModelGraph.Proofs.Tree.Merge

/-!
# Versions of nodes

A node gets another version by being taken out of the graph, together with the edges that touch it,
and by a new node and all these edges coming in again. This happens to a graph that is changed in
place, so a call that is refused on the way would leave a graph without the node. In a graph where
names and ends are unique no call on the way is refused.

- `Graph.inPlace`, `Graph.changeVersionInPlace`: the calls on a graph that is changed in place.
- `outcome_changeVersionInPlace`: this is the change of version of a graph that is kept.
- `VersionRefused`: why a change of version is refused, before anything has been done.
- `VersionChanged`: the graph after a change of version.
- `carryPorts_eq`, `SettingsCarried`: what the new ports take over from the old ones.
- `changeVersion_intact`, `changeVersion_carries_settings`: what this means for a change of version.
-/

namespace ModelGraph

/-! ## Ports -/

section Ports

/-- Where keys are unique, the first element with a key is the only one that is changed. So changing
the first is changing all, which is a map. -/
theorem updateFirst_eq_map {α : Type} {key : α → String} {l : List α} (h : (l.map key).Nodup)
    (k : String) (f : α → α) :
    updateFirst (key · == k) f l = l.map fun a => if key a = k then f a else a := by
  induction l with
  | nil => rfl
  | cons a rest ih =>
    rw [List.map_cons, List.nodup_cons] at h
    obtain ⟨hfirst, hrest⟩ := h
    rw [updateFirst, List.map_cons]
    by_cases ha : key a = k
    · -- the key does not come again, so the rest stays as it is
      have hsame : (rest.map fun b => if key b = k then f b else b) = rest := by
        refine (List.map_congr_left fun b hb => ?_).trans (List.map_id rest)
        exact if_neg fun hk => hfirst (List.mem_map.mpr ⟨b, hb, hk.trans ha.symm⟩)
      simp [ha, hsame]
    · simp [ha, ih hrest]

/-- An element that keeps its key leaves the list of keys as it is. -/
theorem map_updateFirst {α β : Type} {key : α → β} {f : α → α} (hf : ∀ a, key (f a) = key a)
    (p : α → Bool) (l : List α) : (updateFirst p f l).map key = l.map key := by
  induction l with
  | nil => rfl
  | cons a rest ih =>
    rw [updateFirst]
    split
    · rw [List.map_cons, List.map_cons, hf]
    · rw [List.map_cons, List.map_cons, ih]

variable {carry : Port → Port → Port} (hcarry : ∀ p o, (carry p o).name = p.name)

include hcarry

/-- Settings that are taken over change no name. -/
theorem map_name_carryPorts (ports old : List Port) :
    (carryPorts carry ports old).map Port.name = ports.map Port.name := by
  unfold carryPorts
  induction old generalizing ports with
  | nil => rfl
  | cons o rest ih =>
    rw [List.foldl_cons, ih]
    exact map_updateFirst (fun p => hcarry p o) _ ports

/-- Where names are unique on both sides, every port takes over the settings of the old port with
its name, if there is one. -/
theorem carryPorts_eq {ports old : List Port} (hports : (ports.map Port.name).Nodup)
    (hold : (old.map Port.name).Nodup) :
    carryPorts carry ports old =
      ports.map fun p => ((old.find? (·.name == p.name)).map (carry p)).getD p := by
  unfold carryPorts
  -- by induction on the old ports, each of which changes one of the new ports at most
  induction old generalizing ports with
  | nil => simp
  | cons o rest ih =>
    rw [List.map_cons, List.nodup_cons] at hold
    obtain ⟨hfirst, hrest⟩ := hold
    have hnames := map_updateFirst (fun p => hcarry p o) (·.name == o.name) ports
    rw [List.foldl_cons, ih (hnames ▸ hports) hrest, updateFirst_eq_map hports, List.map_map]
    refine List.map_congr_left fun p _ => ?_
    by_cases hp : p.name = o.name
    · -- this port has had its turn, as no old port behind has its name
      have hnone : rest.find? (·.name == o.name) = none := by
        refine List.find?_eq_none.mpr fun q hq hname => ?_
        exact hfirst (List.mem_map.mpr ⟨q, hq, beq_iff_eq.mp hname⟩)
      simp [hp, hcarry, hnone]
    · have hne : ¬ o.name = p.name := fun heq => hp heq.symm
      simp [hp, hne]

end Ports

/-- The names of the ports that nodes of a type have on a side. -/
def NodeType.ports (t : NodeType) : Direction → List String
  | .input => t.inputs
  | .output => t.outputs

/-- A port with the settings that an old port of its side hands on. Inputs and outputs differ here:
only an input gets an initial value. -/
def Port.carry : Direction → Port → Port → Port
  | .input, p, o => (p.carryInterface o).carryInitial o
  | .output, p, o => p.carryInterface o

/-- Its name stays. -/
theorem Port.name_carry (side : Direction) (p o : Port) : (Port.carry side p o).name = p.name := by
  cases side <;> rfl

/-- Ports that are made from names have these names. -/
theorem map_name_named (names : List String) : (names.map Port.named).map Port.name = names := by
  rw [List.map_map]
  exact List.map_id names

namespace Graph

/-! ## Calls in place -/

/-- Calls on a graph that is changed in place, up to the first one that is refused: the refusal, if
there is one, and what the graph is then. What has been done before a refusal stays done, so it is
not clear from the start that a refusal leaves the graph as it was. -/
def inPlace (g : Graph) : List (Graph → Except GraphError Graph) → Option GraphError × Graph
  | [] => (none, g)
  | call :: rest =>
    match call g with
    | .ok g' => g'.inPlace rest
    | .error e => (some e, g)

/-- What is told of calls in place if the graph after a refusal is not looked at. -/
def outcome : Option GraphError × Graph → Except GraphError Graph
  | (none, g) => .ok g
  | (some e, _) => .error e

/-- The calls that put a new node in the place of the one with a name: this one goes with the edges
that touch it, the new one comes, and then the edges come back. -/
def replacement (g : Graph) (name : String) (new : Node) : List (Graph → Except GraphError Graph) :=
  (fun g => .ok (g.removeNode name)) :: (·.addNode new) ::
    (g.edges.filter (·.touches name)).map fun e g => g.addEdge e.withoutLayout

/-- A change of version of a graph that is changed in place. -/
def changeVersionInPlace (g : Graph) (name version : String) : Option GraphError × Graph :=
  match g.node? name with
  | none => (some (.unknownNode name), g)
  | some old =>
    match g.versionedType? old.modelName version with
    | none => (some (.unknownNodeType (old.modelName ++ "::" ++ version)), g)
    | some t => g.inPlace (g.replacement name (renewed t old version))

variable {g g' : Graph} {name version : String} {old new : Node} {t : NodeType} {e : GraphError}

/-- Where calls have not been refused, what is told of them is all there is. -/
theorem eq_of_outcome_eq_ok {r : Option GraphError × Graph} (h : outcome r = .ok g') :
    r = (none, g') := by
  obtain ⟨_ | e, g⟩ := r
  · cases h
    rfl
  · cases h

/-- Calls in place are refused and succeed as calls one after the other do. -/
theorem outcome_inPlace (calls : List (Graph → Except GraphError Graph)) (g : Graph) :
    outcome (g.inPlace calls) = calls.foldlM (fun g call => call g) g := by
  induction calls generalizing g with
  | nil => rfl
  | cons call rest ih =>
    rw [inPlace, List.foldlM_cons]
    -- after a refusal nothing else is called
    cases call g with
    | ok g' => exact ih g'
    | error e => rfl

/-- A change of version in place is refused and succeeds as one of a graph that is kept. -/
theorem outcome_changeVersionInPlace (g : Graph) (name version : String) :
    outcome (g.changeVersionInPlace name version) = g.changeVersion name version := by
  unfold changeVersionInPlace changeVersion
  cases g.node? name with
  | none => rfl
  | some old =>
    cases ht : g.versionedType? old.modelName version with
    | none => simp only [ht, outcome]
    | some t =>
      simp only [ht, outcome_inPlace, replacement, List.foldlM_cons, List.foldlM_map]
      rfl

/-! ## Refusal -/

/-- Why a change of version is refused: there is no such node, or neither its model in this version
nor its model alone is the name of a type. -/
inductive VersionRefused (g : Graph) (name version : String) : GraphError → Prop where
  | noNode (hnode : g.node? name = none) : VersionRefused g name version (.unknownNode name)
  | noType {old : Node} (hnode : g.node? name = some old)
      (hversioned : g.hasNodeType (old.modelName ++ "::" ++ version) = false)
      (hbare : g.hasNodeType old.modelName = false) :
      VersionRefused g name version (.unknownNodeType (old.modelName ++ "::" ++ version))

/-- A change of version that is made has found the node and a type for it. -/
theorem found_of_changeVersion (hok : g.changeVersion name version = .ok g') :
    ∃ old t, g.node? name = some old ∧ g.versionedType? old.modelName version = some t := by
  cases hold : g.node? name with
  | none => simp [changeVersion, hold] at hok
  | some old =>
    cases ht : g.versionedType? old.modelName version with
    | none => simp [changeVersion, hold, ht] at hok
    | some t => exact ⟨old, t, rfl, ht⟩

/-- There is no type for a version only if neither the version nor the model alone is one. -/
theorem versionedType?_eq_none_iff {modelName : String} :
    g.versionedType? modelName version = none ↔
      g.hasNodeType (modelName ++ "::" ++ version) = false ∧ g.hasNodeType modelName = false := by
  simp [versionedType?, hasNodeType, Option.or_eq_none_iff]

/-- In a graph with unique names and ends a change of version is refused for no other reason. -/
theorem WellFormed.changeVersion_eq_error_iff (h : g.WellFormed) :
    g.changeVersion name version = .error e ↔ VersionRefused g name version e := by
  constructor
  · intro herror
    -- the calls that are made once the node and a type for it are found all succeed
    rcases h.changeVersion_error herror with hnone | ⟨old, hold, hnone⟩
    · simp only [Graph.changeVersion, hnone] at herror
      cases herror
      exact .noNode hnone
    · simp only [Graph.changeVersion, hold, hnone] at herror
      cases herror
      obtain ⟨hversioned, hbare⟩ := versionedType?_eq_none_iff.mp hnone
      exact .noType hold hversioned hbare
  · intro hrefused
    cases hrefused with
    | noNode hnode => simp only [changeVersion, hnode]
    | noType hnode hversioned hbare =>
      have hnone := versionedType?_eq_none_iff.mpr ⟨hversioned, hbare⟩
      simp only [changeVersion, hnode, hnone]

/-- **A change of version in place is made as a whole or not at all.** -/
theorem WellFormed.changeVersionInPlace_eq (h : g.WellFormed) :
    g.changeVersionInPlace name version =
      match g.changeVersion name version with
      | .ok g' => (none, g')
      | .error e => (some e, g) := by
  cases hchange : g.changeVersion name version with
  | ok g' => exact eq_of_outcome_eq_ok ((outcome_changeVersionInPlace g name version).trans hchange)
  | error e =>
    -- a refusal comes before the first call
    cases h.changeVersion_eq_error_iff.mp hchange with
    | noNode hnode => simp only [changeVersionInPlace, hnode]
    | noType hnode hversioned hbare =>
      have hnone := versionedType?_eq_none_iff.mpr ⟨hversioned, hbare⟩
      simp only [changeVersionInPlace, hnode, hnone]

/-! ## Success -/

/-- A node stands for an old one in a version of its model. -/
structure Renewal (t : NodeType) (old : Node) (version : String) (new : Node) : Prop where
  name : new.name = old.name
  type : new.typeName = t.name
  version : new.version = version
  domain : new.domain = old.domain
  modelName : new.modelName = old.modelName
  position : new.position = old.position
  parentName : new.parentName = old.parentName
  data : new.data = old.data
  inputs : new.inputs.map Port.name = t.inputs
  outputs : new.outputs.map Port.name = t.outputs

/-- A graph after a change of version. The node moves to the end, and so do the edges that touch it,
since they have been taken out with it. -/
structure VersionChanged (g : Graph) (name version : String) (g' : Graph) : Prop where
  /-- The other nodes stay as they are, and the new one comes last. Its type is that of its model in
  this version if there is one, and that of its model alone otherwise. -/
  nodes : ∃ old t new, g.node? name = some old ∧
    (g.nodeType? (old.modelName ++ "::" ++ version) = some t ∨
      g.hasNodeType (old.modelName ++ "::" ++ version) = false ∧
        g.nodeType? old.modelName = some t) ∧
    Renewal t old version new ∧ g'.nodes = g.nodes.filter (·.name != name) ++ [new]
  /-- The edges that do not touch the node stay as they are, and the others follow, not drawn. -/
  edges : g'.edges = g.edges.filter (!·.touches name) ++
    (g.edges.filter (·.touches name)).map Edge.withoutLayout
  /-- No edge is lost, and none comes twice. -/
  ends : (g'.edges.map Edge.ends).Perm (g.edges.map Edge.ends)
  types : g'.types = g.types
  wellFormed : g'.WellFormed

/-- The new node has what the old one had, and the ports of its type. -/
theorem renewal_renewed (t : NodeType) (version : String)
    (hdata : ∀ tree ∈ old.data, tree.DistinctKeys) :
    Renewal t old version (renewed t old version) where
  name := rfl
  type := rfl
  version := rfl
  domain := rfl
  modelName := rfl
  position := rfl
  parentName := rfl
  data := by
    -- data is merged into the map without entries
    cases hold : old.data with
    | none => simp [renewed, hold]
    | some tree => simp [renewed, hold, Tree.merge_emptyMap (hdata tree hold)]
  inputs := by
    refine (map_name_carryPorts ?_ _ _).trans (map_name_named t.inputs)
    exact fun _ _ => rfl
  outputs := by
    refine (map_name_carryPorts ?_ _ _).trans (map_name_named t.outputs)
    exact fun _ _ => rfl

/-- A version is the one of a registered type, and otherwise the model alone is such a type. -/
theorem versionedType?_eq_some_iff {modelName : String} :
    g.versionedType? modelName version = some t ↔
      g.nodeType? (modelName ++ "::" ++ version) = some t ∨
        g.hasNodeType (modelName ++ "::" ++ version) = false ∧ g.nodeType? modelName = some t := by
  simp [versionedType?, hasNodeType, Option.or_eq_some_iff]

/-- Edges that move behind the others, and lose their layout, keep their ends. -/
theorem ends_moved_perm (edges : List Edge) (name : String) :
    ((edges.filter (!·.touches name) ++ (edges.filter (·.touches name)).map Edge.withoutLayout).map
      Edge.ends).Perm (edges.map Edge.ends) := by
  have hperm := (List.filter_append_perm (·.touches name) edges).map Edge.ends
  rw [List.map_append] at hperm
  rw [List.map_append, List.map_map]
  apply List.perm_append_comm.trans
  exact hperm

/-- Names and ends are unique also after a change of version: the new node takes the name of the old
one, and each edge is put back once. -/
theorem WellFormed.changeVersion (h : g.WellFormed)
    (hok : g.changeVersion name version = .ok g') : g'.WellFormed := by
  obtain ⟨old, t, hold, ht⟩ := found_of_changeVersion hok
  rw [h.changeVersion_eq hold ht] at hok
  cases hok
  constructor
  · -- the name of the new node is free, as the old one has gone
    have hname : old.name = name := name_of_node? hold
    rw [List.map_append, List.nodup_append]
    refine ⟨h.filter_names_nodup _, List.nodup_singleton _, fun a ha b hb => ?_⟩
    obtain ⟨n, hn, rfl⟩ := List.mem_map.mp ha
    obtain rfl : b = old.name := List.mem_singleton.mp hb
    rw [hname]
    simpa using (List.mem_filter.mp hn).2
  · apply (ends_moved_perm g.edges name).nodup_iff.mpr
    exact h.2

/-- A change of version that is made is as it should be. -/
theorem WellFormed.versionChanged (h : g.WellFormed)
    (hdata : ∀ n ∈ g.nodes, ∀ tree ∈ n.data, tree.DistinctKeys)
    (hok : g.changeVersion name version = .ok g') : VersionChanged g name version g' := by
  have hwf := h.changeVersion hok
  obtain ⟨old, t, hold, ht⟩ := found_of_changeVersion hok
  have hmem : old ∈ g.nodes := List.mem_of_find?_eq_some hold
  -- what the calls make together is known, so it can be looked at part by part
  rw [h.changeVersion_eq hold ht] at hok
  cases hok
  exact {
    nodes := ⟨old, t, _, hold, versionedType?_eq_some_iff.mp ht,
      renewal_renewed t version (hdata old hmem), rfl⟩
    edges := rfl
    ends := ends_moved_perm g.edges name
    types := rfl
    wellFormed := hwf }

/-- **A change of version keeps the graph intact.** It is refused only if there is no such node or
no type for it, which is found before anything is done: the graph in place is then what it was.
Otherwise all the calls that it is made of succeed, and nothing is lost or changed but the node and
the layout of its edges. -/
theorem changeVersion_intact (h : g.WellFormed)
    (hdata : ∀ n ∈ g.nodes, ∀ tree ∈ n.data, tree.DistinctKeys) (name version : String) :
    (∀ e, g.changeVersion name version = .error e ↔ VersionRefused g name version e) ∧
      (∀ e, g.changeVersion name version = .error e →
        g.changeVersionInPlace name version = (some e, g)) ∧
      ∀ g', g.changeVersion name version = .ok g' →
        g.changeVersionInPlace name version = (none, g') ∧ VersionChanged g name version g' := by
  refine ⟨fun e => h.changeVersion_eq_error_iff, fun e he => ?_, fun g' hok => ?_⟩
  · rw [h.changeVersionInPlace_eq, he]
  · refine ⟨?_, h.versionChanged hdata hok⟩
    rw [h.changeVersionInPlace_eq, hok]

/-! ## Settings of ports -/

/-- What the ports of a new node take over from the ports of the old one on the same side. The
initial value of an output is not handed on. -/
structure SettingsCarried (old new : Node) : Prop where
  /-- A port that was there has its interface settings, and none where it had none. -/
  interface : ∀ side, ∀ p ∈ new.ports side, ∀ o, old.port? side p.name = some o →
    p.interface = o.interface ∧ p.exportName = o.exportName
  /-- An input that was there has its initial value. -/
  initial : ∀ p ∈ new.inputs, ∀ o, old.port? .input p.name = some o → p.initial = o.initial
  /-- An output has no initial value, whether it was there or not. -/
  noInitial : ∀ p ∈ new.outputs, p.initial = none
  /-- A port that was not there on this side has nothing but its name. -/
  fresh : ∀ side, ∀ p ∈ new.ports side, old.port? side p.name = none → p = .named p.name

variable {side : Direction} {p : Port}

/-- Each port of the new node comes from a name of its type, and from the old port of this name, if
there was one. -/
theorem port_renewed (htype : (t.ports side).Nodup)
    (hold : ((old.ports side).map Port.name).Nodup) (hp : p ∈ (renewed t old version).ports side) :
    p = ((old.port? side p.name).map (Port.carry side (.named p.name))).getD (.named p.name) := by
  have hports : (renewed t old version).ports side =
      carryPorts (Port.carry side) ((t.ports side).map Port.named) (old.ports side) := by
    cases side <;> rfl
  have hnamed : (((t.ports side).map Port.named).map Port.name).Nodup := by
    rwa [map_name_named]
  rw [hports, carryPorts_eq (Port.name_carry side) hnamed hold, List.map_map] at hp
  obtain ⟨port, -, hp⟩ := List.mem_map.mp hp
  change ((old.port? side port).map (Port.carry side (.named port))).getD (.named port) = p at hp
  -- the port has its name from the type, also if there is an old one
  have hname : p.name = port := by
    rw [← hp]
    cases old.port? side port with
    | none => rfl
    | some o => exact Port.name_carry side _ o
  rw [hname]
  exact hp.symm

/-- The settings of the old node go to the ports with the same names. What is carried over for
inputs and for outputs is told apart. -/
theorem settingsCarried_renewed (htype : ∀ side, (t.ports side).Nodup)
    (hold : ∀ side, ((old.ports side).map Port.name).Nodup) :
    SettingsCarried old (renewed t old version) where
  interface side p hp o ho := by
    have hport := port_renewed (htype side) (hold side) hp
    rw [ho] at hport
    rw [hport]
    cases side <;> simp [Port.carry, Port.carryInterface, Port.carryInitial, Port.named]
  initial p hp o ho := by
    have hport := port_renewed (htype .input) (hold .input) hp
    rw [ho] at hport
    rw [hport]
    simp [Port.carry, Port.carryInterface, Port.carryInitial, Port.named]
  noInitial p hp := by
    -- an initial value is carried over for inputs only
    rw [port_renewed (htype .output) (hold .output) hp]
    cases old.port? .output p.name with
    | none => rfl
    | some o => rfl
  fresh side p hp hnone := by
    have hport := port_renewed (htype side) (hold side) hp
    rwa [hnone] at hport

/-- **A change of version hands on the settings of ports**, as far as it goes: to an input its
interface settings and its initial value, to an output its interface settings alone. -/
theorem changeVersion_carries_settings (h : g.WellFormed)
    (hok : g.changeVersion name version = .ok g') (hold : g.node? name = some old)
    (ht : g.versionedType? old.modelName version = some t)
    (hports : ∀ side, ((old.ports side).map Port.name).Nodup)
    (htype : ∀ side, (t.ports side).Nodup) :
    ∃ new, g'.node? name = some new ∧ SettingsCarried old new := by
  have hwf := h.changeVersion hok
  rw [h.changeVersion_eq hold ht] at hok
  cases hok
  have hname : old.name = name := name_of_node? hold
  -- the new node has the name of the old one and stands last
  refine ⟨renewed t old version, ?_, settingsCarried_renewed htype hports⟩
  apply hwf.node?_eq_some_iff.mpr
  exact ⟨List.mem_append_right _ (List.mem_singleton_self _), hname⟩

/-! ## A dial with versions -/

/-- A dial that turns itself, with an initial value on both sides. -/
def dial : Node where
  name := "dial"
  domain := "software"
  typeName := "DIAL"
  modelName := "DIAL"
  version := "v1"
  inputs := [{ name := "in", initial := some (.scalar (.int 5)) }, { name := "old" }]
  outputs := [
    { name := "out"
      interface := some 1
      exportName := some "dial/out"
      initial := some (.scalar (.int 5)) }]
  data := some (.map ⟨[("gain", .scalar (.int 2)), ("unit", .emptyMap)]⟩)
  parentName := some "panel"

/-- The type of dials in another version. -/
def newDialType : NodeType :=
  { name := "DIAL::v2", domain := "software", inputs := ["mode", "in"], outputs := ["out"] }

/-- The dial and a lamp, with an edge that is drawn, an edge to nowhere and an edge of the dial to
itself, and two types for the dial. -/
def dialGraph : Graph where
  nodes := [dial, .ofType "lamp" "software" "LAMP"]
  edges := [{ ends := ⟨"dial", "out", "lamp", "in"⟩, vertices := some (.text "drawn") },
    .between ⟨"lamp", "out", "ghost", "in"⟩, .between ⟨"dial", "out", "dial", "in"⟩]
  types := .ofList [("DIAL", ⟨"DIAL", "software", ["in"], ["out"]⟩), ("DIAL::v2", newDialType)]

/-- The dial in another version. -/
def newDial : Node :=
  { dial with
    typeName := "DIAL::v2"
    version := "v2"
    inputs := [.named "mode", { name := "in", initial := some (.scalar (.int 5)) }]
    outputs := [{ name := "out", interface := some 1, exportName := some "dial/out" }] }

/-- The graph with the dial in another version. -/
def newDialGraph : Graph :=
  { dialGraph with
    nodes := [.ofType "lamp" "software" "LAMP", newDial]
    edges := [.between ⟨"lamp", "out", "ghost", "in"⟩, .between ⟨"dial", "out", "lamp", "in"⟩,
      .between ⟨"dial", "out", "dial", "in"⟩] }

/-- The dial gets another version, and its edges come last. The lamp has no other version. -/
theorem dialGraph_intact :
    dialGraph.changeVersion "dial" "v2" = .ok newDialGraph ∧
      VersionChanged dialGraph "dial" "v2" newDialGraph ∧
      dialGraph.changeVersionInPlace "dial" "v2" = (none, newDialGraph) ∧
      VersionRefused dialGraph "lamp" "v2" (.unknownNodeType "LAMP::v2") ∧
      dialGraph.changeVersionInPlace "lamp" "v2" =
        (some (.unknownNodeType "LAMP::v2"), dialGraph) := by
  have hwf : dialGraph.WellFormed := ⟨by decide, by decide⟩
  have hdata : ∀ n ∈ dialGraph.nodes, ∀ tree ∈ n.data, tree.DistinctKeys := by
    simp [dialGraph, dial, Node.ofType, Tree.emptyMap, OrderedMap.empty]
  have hok : dialGraph.changeVersion "dial" "v2" = .ok newDialGraph := rfl
  have herror : dialGraph.changeVersion "lamp" "v2" = .error (.unknownNodeType "LAMP::v2") := rfl
  obtain ⟨-, -, hchanged⟩ := changeVersion_intact hwf hdata "dial" "v2"
  obtain ⟨hwhy, hrefused, -⟩ := changeVersion_intact hwf hdata "lamp" "v2"
  obtain ⟨hplace, hversion⟩ := hchanged _ hok
  exact ⟨hok, hversion, hplace, (hwhy _).mp herror, hrefused _ herror⟩

/-- The input and the output of the dial hand on their settings. -/
theorem dialGraph_settings :
    ∃ new, newDialGraph.node? "dial" = some new ∧ SettingsCarried dial new ∧ new = newDial := by
  have hwf : dialGraph.WellFormed := ⟨by decide, by decide⟩
  have hok : dialGraph.changeVersion "dial" "v2" = .ok newDialGraph := rfl
  have hports : ∀ side, ((dial.ports side).map Port.name).Nodup := by
    intro side
    cases side <;> decide
  have htype : ∀ side, (newDialType.ports side).Nodup := by
    intro side
    cases side <;> decide
  -- all conditions hold by evaluation
  obtain ⟨new, hnew, hcarried⟩ := changeVersion_carries_settings hwf hok rfl rfl hports htype
  exact ⟨new, hnew, hcarried, (Option.some.inj hnew).symm⟩

/-- The output of the dial has an initial value, which the output of the new dial has not. -/
theorem dialGraph_initial_lost :
    dialGraph.WellFormed ∧ (∀ side, ((dial.ports side).map Port.name).Nodup) ∧
      dialGraph.changeVersion "dial" "v2" = .ok newDialGraph ∧
      dialGraph.node? "dial" = some dial ∧ newDialGraph.node? "dial" = some newDial ∧
      ((dial.port? .output "out").bind Port.initial) = some (.scalar (.int 5)) ∧
      (newDial.port? .output "out").isSome = true ∧
      ((newDial.port? .output "out").bind Port.initial) = none := by
  refine ⟨⟨by decide, by decide⟩, ?_, rfl, rfl, rfl, rfl, rfl, rfl⟩
  intro side
  cases side <;> decide

end Graph
end ModelGraph
