import ModelGraph.Proofs.Graph.Ports
import ModelGraph.Proofs.Yaml.Settled

/-!
# Configurations of ports

The configuration of a port is kept as text. Reading and writing look for the port in the same
way, so where several ports of a side have one name both mean the first of them. What has been
written is read again, unless it is a leaf, which is no document.

- `find?_updateFirst`: a list with the first element of a kind changed.
- `Node.port?_withConfig`, `Node.portConfig?_withConfig`: what is found in a node with a text for
  one of its ports, under the name of this port; `…_of_ne` under any other.
- `Graph.setPortConfigInPlace`: the calls on a graph that is changed in place.
- `PortConfigured`: the graph after the configuration of a port has been set.
- `setPortConfig_reads_back`: what this means for setting and reading a configuration.
-/

namespace ModelGraph

/-! ## The first element of a kind -/

section First

variable {α : Type} {p q : α → Bool} {f : α → α}

/-- The first element of a kind is the one behind those that are not. -/
theorem updateFirst_append {before : List α} (hbefore : ∀ b ∈ before, p b = false) {a : α}
    (ha : p a = true) (f : α → α) (after : List α) :
    updateFirst p f (before ++ a :: after) = before ++ f a :: after := by
  induction before with
  | nil => exact if_pos ha
  | cons b before ih =>
    rw [List.forall_mem_cons] at hbefore
    rw [List.cons_append, updateFirst, hbefore.1, if_neg Bool.false_ne_true, ih hbefore.2]
    rfl

/-- The first element of a kind is still the first one after it has been changed. -/
theorem find?_updateFirst (hf : ∀ a, p (f a) = p a) (l : List α) :
    (updateFirst p f l).find? p = (l.find? p).map f := by
  induction l with
  | nil => rfl
  | cons a rest ih =>
    rw [updateFirst, List.find?_cons]
    cases ha : p a with
    | true => simp [hf, ha]
    | false => simpa [ha] using ih

/-- The first element of another kind is not touched. -/
theorem find?_updateFirst_of_apart (hf : ∀ a, q (f a) = q a) (hpq : ∀ a, p a = true → q a = false)
    (l : List α) : (updateFirst p f l).find? q = l.find? q := by
  induction l with
  | nil => rfl
  | cons a rest ih =>
    rw [updateFirst, List.find?_cons]
    cases ha : p a with
    | true => simp [hf, hpq a ha]
    | false => simp [ih, List.find?_cons]

end First

/-! ## Nodes -/

namespace Node

variable {side side' : Direction} {port port' : String}

/-- The ports that have been set are there. -/
theorem ports_withPorts (n : Node) (ports : List Port) (side : Direction) :
    (n.withPorts ports side).ports side = ports := by
  cases side <;> rfl

/-- The ports of the other side are what they were. -/
theorem ports_withPorts_of_ne (n : Node) (ports : List Port) (hne : side' ≠ side) :
    (n.withPorts ports side).ports side' = n.ports side' := by
  cases side <;> cases side' <;> first | rfl | exact absurd rfl hne

/-- The text is put into the port that is found under the name. -/
theorem port?_withConfig (n : Node) (side : Direction) (port text : String) :
    (n.withConfig side port text).port? side port =
      (n.port? side port).map (Port.withConfig text) := by
  rw [port?, withConfig, ports_withPorts]
  exact find?_updateFirst (f := Port.withConfig text) (fun _ => rfl) _

/-- The ports with other names are as they were, and so are all ports of the other side. -/
theorem port?_withConfig_of_ne (n : Node) (text : String) (hne : (side', port') ≠ (side, port)) :
    (n.withConfig side port text).port? side' port' = n.port? side' port' := by
  rw [port?, withConfig]
  -- on the same side another name is looked for, and on the other side nothing has changed
  by_cases hside : side' = side
  · subst hside
    have hname : port ≠ port' := fun heq => hne (heq ▸ rfl)
    rw [ports_withPorts]
    refine find?_updateFirst_of_apart (f := Port.withConfig text) (fun _ => rfl) (fun p hp => ?_) _
    rw [beq_iff_eq] at hp
    exact beq_eq_false_iff_ne.mpr (hp ▸ hname)
  · rw [ports_withPorts_of_ne n _ hside]
    rfl

/-- What is read of the port is what its text says. -/
theorem portConfig?_withConfig {n : Node} (hport : n.port? side port ≠ none) (text : String) :
    (n.withConfig side port text).portConfig? side port = Tree.ofDocumentText? text := by
  obtain ⟨p, hp⟩ := Option.ne_none_iff_exists'.mp hport
  rw [portConfig?, port?_withConfig, hp]
  rfl

/-- What is read of another port of the node is what was read of it before. -/
theorem portConfig?_withConfig_of_ne (n : Node) (text : String)
    (hne : (side', port') ≠ (side, port)) :
    (n.withConfig side port text).portConfig? side' port' = n.portConfig? side' port' := by
  rw [portConfig?, port?_withConfig_of_ne n text hne, portConfig?]

end Node

namespace Graph

variable {g g' : Graph} {node node' port port' : String} {side side' : Direction} {config : Tree}
  {n : Node}

/-! ## Graphs -/

/-- The configuration of a port of a node. -/
def portConfig? (g : Graph) (node : String) (side : Direction) (port : String) : Option Tree :=
  (g.node? node).bind (·.portConfig? side port)

/-- Setting a configuration in a graph that is changed in place: node and port are looked up, and
then the text is written. -/
def setPortConfigInPlace (g : Graph) (node port : String) (side : Direction) (config : Tree) :
    Option GraphError × Graph :=
  g.inPlace (portCalls node port side
    [fun g => .ok (g.updateNode node (Node.withConfig side port (Yaml.render config)))])

/-- **Setting a configuration in place is done as a whole or not at all.** -/
theorem setPortConfigInPlace_eq (g : Graph) (node port : String) (side : Direction)
    (config : Tree) :
    g.setPortConfigInPlace node port side config =
      match g.setPortConfig node port side config with
      | .ok g' => (none, g')
      | .error e => (some e, g) :=
  inPlace_portCalls rfl

/-- A graph after a text has been put into a port. One node is another one, which differs from it in
this port alone: the first one on this side that has the name. Other ports of this name are left
alone, and they are not read either. -/
structure PortConfigured (g : Graph) (node port : String) (side : Direction) (text : String)
    (g' : Graph) : Prop where
  nodes : ∃ n before after, g.node? node = some n ∧ g.nodes = before ++ n :: after ∧
    ∃ p first last, n.port? side port = some p ∧ n.ports side = first ++ p :: last ∧
      (∀ q ∈ first, q.name ≠ port) ∧
      g'.nodes = before ++
        n.withPorts (first ++ { p with defaultConfig := some text } :: last) side :: after
  edges : g'.edges = g.edges
  types : g'.types = g.types

/-- Changing the text of a port changes this port alone. -/
theorem WellFormed.portConfigured (h : g.WellFormed) (hn : g.node? node = some n)
    (hport : n.port? side port ≠ none) (text : String) :
    PortConfigured g node port side text (g.updateNode node (Node.withConfig side port text)) where
  nodes := by
    obtain ⟨before, after, hnodes, hchanged⟩ :=
      h.nodes_updateNode hn (Node.withConfig side port text)
    obtain ⟨p, hp⟩ := Option.ne_none_iff_exists'.mp hport
    -- the port found is the first one with its name
    obtain ⟨hname, first, last, hports, hfirst⟩ := List.find?_eq_some_iff_append.mp hp
    have hbefore : ∀ q ∈ first, (q.name == port) = false := fun q hq => by simpa using hfirst q hq
    refine ⟨n, before, after, hn, hnodes, p, first, last, hp, hports, fun q hq => ?_, ?_⟩
    · exact beq_eq_false_iff_ne.mp (hbefore q hq)
    · rw [hchanged, Node.withConfig, hports, updateFirst_append hbefore hname]
      rfl
  edges := rfl
  types := rfl

/-- What is read of the port afterwards is what its text says. -/
theorem portConfig?_updateNode (hn : g.node? node = some n) (hport : n.port? side port ≠ none)
    (text : String) :
    (g.updateNode node (Node.withConfig side port text)).portConfig? node side port =
      Tree.ofDocumentText? text := by
  rw [portConfig?, node?_updateNode (Node.name_withConfig side port text), hn]
  exact Node.portConfig?_withConfig hport text

/-- What is read of any other port is what was read of it before. -/
theorem portConfig?_updateNode_of_ne (g : Graph) (text : String)
    (hne : (node', side', port') ≠ (node, side, port)) :
    (g.updateNode node (Node.withConfig side port text)).portConfig? node' side' port' =
      g.portConfig? node' side' port' := by
  -- another port of the same node, or a port of another node
  by_cases hnode : node' = node
  · subst hnode
    have hport : (side', port') ≠ (side, port) := fun heq => hne (congrArg (Prod.mk node') heq)
    rw [portConfig?, portConfig?, node?_updateNode (Node.name_withConfig side port text)]
    cases g.node? node' with
    | none => rfl
    | some n => exact n.portConfig?_withConfig_of_ne text hport
  · rw [portConfig?, node?_updateNode_of_ne (Node.name_withConfig side port text) g hnode,
      portConfig?]

/-- **A configuration that has been set is read again.** Setting it is refused only if there is no
such node or no such port on this side, and then a graph that is changed in place is as it was.
Otherwise nothing but this port is changed. A map or a sequence is read as it was written, with
small unsigned numbers in signed leaves, and of a leaf nothing is read. -/
theorem setPortConfig_reads_back (h : g.WellFormed) (node port : String) (side : Direction)
    (config : Tree) :
    (∀ e, g.setPortConfig node port side config = .error e ↔ PortRefused g node port side e) ∧
      (∀ e, g.setPortConfig node port side config = .error e →
        g.setPortConfigInPlace node port side config = (some e, g)) ∧
      ∀ g', g.setPortConfig node port side config = .ok g' →
        g.setPortConfigInPlace node port side config = (none, g') ∧
        PortConfigured g node port side (Yaml.render config) g' ∧
        (config.Fits Scalar.Sound 128 → g'.portConfig? node side port =
          if config.isScalar then none else some config.settled) ∧
        (config.LeavesAll Scalar.Canonical → config.settled = config) ∧
        ∀ node' side' port', (node', side', port') ≠ (node, side, port) →
          g'.portConfig? node' side' port' = g.portConfig? node' side' port' := by
  refine ⟨fun e => updateAtPort_eq_error_iff, fun e herror => ?_, fun g' hok => ⟨?_, ?_⟩⟩
  · rw [setPortConfigInPlace_eq, herror]
  · rw [setPortConfigInPlace_eq, hok]
  · obtain ⟨n, hn, hport, rfl⟩ := updateAtPort_eq_ok_iff.mp hok
    -- the port that is found afterwards is the one that was found before, with the text
    refine ⟨h.portConfigured hn hport _, fun hfits => ?_, Tree.settled_eq_self,
      fun node' side' port' hne => portConfig?_updateNode_of_ne g _ hne⟩
    rw [portConfig?_updateNode hn hport, Tree.ofDocumentText?_render hfits]

/-! ## A tuner -/

/-- A tuner with two inputs of one name, and an output of this name that has a configuration. -/
def tuner : Node where
  name := "tuner"
  domain := "bagel"
  typeName := "PIPE"
  inputs := [.named "mode", { name := "in", interface := some 1 }, .named "in"]
  outputs := [{ name := "in", defaultConfig := some "rate: 50\n" }]

/-- The tuner and a lamp without inputs. -/
def tunerGraph : Graph where
  nodes := [.ofType "lamp" "bagel" "LAMP", tuner]
  edges := [.between ⟨"tuner", "in", "lamp", "in"⟩]
  types := OrderedMap.empty

/-- A configuration with a sequence, an empty map and a text that looks like a number. -/
def tunerConfig : Tree :=
  .map ⟨[("rate", .scalar (.int 100)), ("bands", .seq [.text "7", .map ⟨[]⟩, .bool true])]⟩

/-- The tuner with the configuration at the first of its inputs that have the name. -/
def tunedGraph : Graph :=
  { tunerGraph with
    nodes := [.ofType "lamp" "bagel" "LAMP",
      { tuner with
        inputs := [.named "mode",
          { name := "in", interface := some 1,
            defaultConfig := some "rate: 100\nbands:\n- '7'\n- {}\n- true\n" },
          .named "in"] }] }

/-- The tuner gets a configuration, which is read again, while the output keeps its own. A leaf in
its place is not read. The lamp has no input that could get one. -/
theorem tunerGraph_reads_back :
    tunerGraph.WellFormed ∧ tunerConfig.Fits Scalar.Sound 128 ∧
      tunerGraph.setPortConfig "tuner" "in" .input tunerConfig = .ok tunedGraph ∧
      tunerGraph.setPortConfigInPlace "tuner" "in" .input tunerConfig = (none, tunedGraph) ∧
      tunedGraph.portConfig? "tuner" .input "in" = some tunerConfig ∧
      tunedGraph.portConfig? "tuner" .output "in" =
        some (.map ⟨[("rate", .scalar (.int 50))]⟩) ∧
      (∃ g', tunerGraph.setPortConfig "tuner" "in" .input (.text "fast") = .ok g' ∧
        g'.portConfig? "tuner" .input "in" = none) ∧
      tunerGraph.setPortConfigInPlace "lamp" "in" .input tunerConfig =
        (some (.unknownPort "lamp" "in"), tunerGraph) := by
  have hwf : tunerGraph.WellFormed := ⟨by decide, by decide⟩
  have hcanonical : tunerConfig.LeavesAll Scalar.Canonical := by
    simp [tunerConfig, Tree.text, Tree.bool, Scalar.Canonical]
  have hdistinct : tunerConfig.DistinctKeys := by simp [tunerConfig, Tree.text, Tree.bool]
  have hfits : tunerConfig.Fits Scalar.Sound 128 :=
    ⟨⟨hcanonical.imp fun _ => Scalar.Canonical.sound, hdistinct⟩, by decide +kernel⟩
  -- the written text decides what the graph is afterwards
  have htext : Yaml.render tunerConfig = "rate: 100\nbands:\n- '7'\n- {}\n- true\n" := by
    decide +kernel
  have hok : tunerGraph.setPortConfig "tuner" "in" .input tunerConfig = .ok tunedGraph := by
    rw [setPortConfig, htext]
    rfl
  have herror : tunerGraph.setPortConfig "lamp" "in" .input tunerConfig =
      .error (.unknownPort "lamp" "in") := rfl
  obtain ⟨-, -, hset⟩ := setPortConfig_reads_back hwf "tuner" "in" .input tunerConfig
  obtain ⟨-, -, hleaf⟩ := setPortConfig_reads_back hwf "tuner" "in" .input (.text "fast")
  obtain ⟨-, hrefused, -⟩ := setPortConfig_reads_back hwf "lamp" "in" .input tunerConfig
  obtain ⟨hplace, -, hread, hsettled, hother⟩ := hset _ hok
  obtain ⟨-, -, hnone, -, -⟩ := hleaf _ rfl
  refine ⟨hwf, hfits, hok, hplace, ?_, ?_, ⟨_, rfl, hnone (Tree.fits_scalar trivial)⟩,
    hrefused _ herror⟩
  · rw [hread hfits, hsettled hcanonical]
    rfl
  · rw [hother "tuner" .output "in" (by decide)]
    decide +kernel

/-- A configuration with a small number in an unsigned leaf. -/
def smallRate : Tree := .map ⟨[("rate", .scalar (.wide 100))]⟩

/-- The small number is read in a signed leaf, and so the configuration is not what was written. -/
theorem tunerGraph_reads_signed :
    tunerGraph.WellFormed ∧ smallRate.Fits Scalar.Sound 128 ∧
      ∃ g', tunerGraph.setPortConfig "tuner" "in" .input smallRate = .ok g' ∧
        g'.portConfig? "tuner" .input "in" = some (.map ⟨[("rate", .scalar (.int 100))]⟩) ∧
        g'.portConfig? "tuner" .input "in" ≠ some smallRate := by
  have hleaves : smallRate.LeavesAll Scalar.Sound :=
    Tree.leavesAll_map.mpr (List.forall_mem_singleton.mpr trivial)
  have hfits : smallRate.Fits Scalar.Sound 128 :=
    ⟨⟨hleaves, by simp [smallRate]⟩, by decide +kernel⟩
  -- reading back is evaluated by the theorem about texts, not by running the reader
  have hread : (tunerGraph.updateNode "tuner"
      (Node.withConfig .input "in" (Yaml.render smallRate))).portConfig? "tuner" .input "in" =
        some (.map ⟨[("rate", .scalar (.int 100))]⟩) := by
    rw [portConfig?_updateNode rfl (by decide), Tree.ofDocumentText?_render hfits]
    decide +kernel
  have hok : tunerGraph.setPortConfig "tuner" "in" .input smallRate = .ok (tunerGraph.updateNode
      "tuner" (Node.withConfig .input "in" (Yaml.render smallRate))) := rfl
  refine ⟨⟨by decide, by decide⟩, hfits, _, hok, hread, ?_⟩
  rw [hread]
  decide

end Graph
end ModelGraph
