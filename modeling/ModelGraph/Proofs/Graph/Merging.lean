import ModelGraph.Proofs.Graph.Ports
import ModelGraph.Proofs.Tree.Path

/-!
# Merging of inputs

The mode of an input is kept in the data of its node, three maps down, under keys of which one is
the name of the port. Whatever stands in the way is replaced by a map, and nothing beside the way
changes.

- `Graph.mergeCalls`, `Graph.setMergeModeInPlace`: the calls on a graph that is changed in place,
  which are the calls at a port with three writes.
- `setMergeMode_eq_ok_iff`, `setMergeMode_eq_error_iff`: success and refusal of setting a mode.
- `DataChanged`, `InterfaceSet`: the graph and the data after setting a mode.
- `settings_settings`, `setMergeMode_again`, `setMergeMode_other`: one call after another one.
- `setMergeMode_local`: what this means for setting a mode.
-/

namespace ModelGraph

open ModelGraph.Tree (ChangedAt Rearranged)

namespace MergeMode

variable {mode mode' : MergeMode}

/-! ## Settings -/

/-- A mode replaces all of another one. -/
theorem settings_settings (mode mode' : MergeMode) (interface : Tree) :
    mode'.settings (mode.settings interface) = mode'.settings interface := by
  have hmerge : "merge" ∈ (interface.set "merge" (.text mode.name)).fields.keys := by
    rw [OrderedMap.mem_keys_iff]
    exact ⟨_, by rw [← Tree.field?_eq_get?, Tree.field?_set_self]⟩
  rw [settings, settings, settings, Tree.set_comm_of_mem hmerge (by decide),
    Tree.set_set, Tree.set_set]

/-- A mode is kept under two keys, and the other settings of an interface stay. -/
theorem changedAt_settings (mode : MergeMode) (interface : Tree) :
    ChangedAt ["merge", "bias"] interface (mode.settings interface) :=
  (Tree.changedAt_set interface "merge" (.text mode.name)).set (by decide) (.float mode.bias)

end MergeMode

/-- Data after the settings of an interface have got a mode. What is on the way are maps, which have
all the entries that were there before at their places. What is not a map there counts as one
without entries. -/
structure InterfaceSet (port : String) (mode : MergeMode) (data data' configuration interfaces
    interface : Tree) : Prop where
  configuration_eq : data'.field? "configuration" = some configuration
  interfaces_eq : configuration.field? "interfaces" = some interfaces
  interface_eq : interfaces.field? port = some interface
  merge_eq : interface.field? "merge" = some (.text mode.name)
  bias_eq : interface.field? "bias" = some (.float mode.bias)
  data_kept : ChangedAt ["configuration"] data data'
  configuration_kept : ChangedAt ["interfaces"] (data.child "configuration") configuration
  interfaces_kept : ChangedAt [port] ((data.child "configuration").child "interfaces") interfaces
  interface_kept :
    ChangedAt ["merge", "bias"] (((data.child "configuration").child "interfaces").child port)
      interface

/-- Going down to the interface and setting its mode gives data of this kind. -/
theorem interfaceSet_updateAt (port : String) (mode : MergeMode) (data : Tree) :
    ∃ configuration interfaces interface,
      InterfaceSet port mode data (data.updateAt mode.settings (MergeMode.path port)) configuration
        interfaces interface := by
  refine ⟨_, _, _, Tree.field?_updateChild_self _ _ _, Tree.field?_updateChild_self _ _ _,
    Tree.field?_updateChild_self _ _ _, ?_, ?_, Tree.changedAt_updateChild _ _ _,
    Tree.changedAt_updateChild _ _ _, Tree.changedAt_updateChild _ _ _,
    mode.changedAt_settings _⟩
  · rw [Tree.updateAt, MergeMode.settings, Tree.field?_set_of_ne _ (by decide),
      Tree.field?_set_self]
  · rw [Tree.updateAt, MergeMode.settings, Tree.field?_set_self]

namespace Graph

variable {g g' : Graph} {node port : String} {mode mode' : MergeMode} {n : Node}

/-! ## One node -/

/-- Two changes of the data of a node are one change. -/
theorem updateNode_withData (g : Graph) (name : String) (f f' : Tree → Tree) :
    (g.updateNode name (Node.withData f)).updateNode name (Node.withData f') =
      g.updateNode name (Node.withData (f' ∘ f)) :=
  updateNode_updateNode (Node.name_withData f) g name

/-- The node is found with its data changed. -/
theorem node?_withData (g : Graph) (name : String) (f : Tree → Tree) :
    (g.updateNode name (Node.withData f)).node? name = (g.node? name).map (Node.withData f) :=
  node?_updateNode (Node.name_withData f) g name

/-- A graph in which the data of one node is another one. -/
structure DataChanged (g : Graph) (n : Node) (data : Tree) (g' : Graph) : Prop where
  nodes : ∃ before after, g.nodes = before ++ n :: after ∧
    g'.nodes = before ++ { n with data := some data } :: after
  edges : g'.edges = g.edges
  types : g'.types = g.types

/-- Where names are unique, only the node with a name is changed. -/
theorem WellFormed.dataChanged (h : g.WellFormed) (hn : g.node? node = some n) (f : Tree → Tree) :
    DataChanged g n (f (n.data.getD Tree.emptyMap)) (g.updateNode node (Node.withData f)) where
  nodes := h.nodes_updateNode hn (Node.withData f)
  edges := rfl
  types := rfl

/-! ## Success and refusal -/

/-- A mode can be set for every input of a node. -/
theorem setMergeMode_eq_ok (hn : g.node? node = some n) (hport : n.port? .input port ≠ none) :
    g.setMergeMode node port mode =
      .ok (g.updateNode node (Node.withData (·.updateAt mode.settings (MergeMode.path port)))) :=
  updateAtPort_eq_ok hn hport

/-- A mode is set by changing the data of a node that has the input. -/
theorem setMergeMode_eq_ok_iff : g.setMergeMode node port mode = .ok g' ↔
    ∃ n, g.node? node = some n ∧ n.port? .input port ≠ none ∧
      g' = g.updateNode node (Node.withData (·.updateAt mode.settings (MergeMode.path port))) :=
  updateAtPort_eq_ok_iff

/-- Setting a mode is refused like any change at an input. -/
theorem setMergeMode_eq_error_iff {e : GraphError} :
    g.setMergeMode node port mode = .error e ↔ PortRefused g node port .input e :=
  updateAtPort_eq_error_iff

/-! ## Calls in place -/

/-- The calls that set a mode: after the node and its input have been looked up, data comes in where
there is none, and then the name of the mode and its bias are written. -/
def mergeCalls (node port : String) (mode : MergeMode) : List (Graph → Except GraphError Graph) :=
  let write (f : Tree → Tree) (g : Graph) : Except GraphError Graph :=
    .ok (g.updateNode node (Node.withData f))
  portCalls node port .input
    [write id,
      write (·.setAt (MergeMode.path port) "merge" (.text mode.name)),
      write (·.setAt (MergeMode.path port) "bias" (.float mode.bias))]

/-- Setting a mode in a graph that is changed in place. -/
def setMergeModeInPlace (g : Graph) (node port : String) (mode : MergeMode) :
    Option GraphError × Graph :=
  g.inPlace (mergeCalls node port mode)

/-- The writes together make the settings of the mode. -/
theorem updateAt_settings (mode : MergeMode) (port : String) (data : Tree) :
    (data.setAt (MergeMode.path port) "merge" (.text mode.name)).setAt (MergeMode.path port) "bias"
      (.float mode.bias) = data.updateAt mode.settings (MergeMode.path port) :=
  Tree.updateAt_updateAt (fun _ _ => rfl) _ data _

/-- **Setting a mode in place is done as a whole or not at all.** -/
theorem setMergeModeInPlace_eq (g : Graph) (node port : String) (mode : MergeMode) :
    g.setMergeModeInPlace node port mode =
      match g.setMergeMode node port mode with
      | .ok g' => (none, g')
      | .error e => (some e, g) := by
  refine inPlace_portCalls ?_
  simp only [inPlace, updateNode_withData]
  -- what the writes do to the data one after the other
  refine congrArg (fun f => (none, g.updateNode node (Node.withData f))) (funext fun data => ?_)
  exact updateAt_settings mode port data

/-! ## One call after another one -/

/-- A second mode for an input replaces the first one. -/
theorem setMergeMode_again (h : g.setMergeMode node port mode = .ok g') :
    g'.setMergeMode node port mode' = g.setMergeMode node port mode' := by
  obtain ⟨n, hn, hport, rfl⟩ := setMergeMode_eq_ok_iff.mp h
  have hn' := g.node?_withData node (·.updateAt mode.settings (MergeMode.path port))
  rw [hn, Option.map_some] at hn'
  rw [setMergeMode_eq_ok hn' hport, setMergeMode_eq_ok hn hport, updateNode_withData]
  refine congrArg (fun f => Except.ok (g.updateNode node (Node.withData f))) (funext fun data => ?_)
  -- both writes go down the same way, so the second one finds what the first one has left
  refine (Tree.updateAt_updateAt (fun _ _ => rfl) _ data _).trans ?_
  exact congrArg (data.updateAt · _) (funext (mode.settings_settings mode'))

/-- The settings of two interfaces can be changed in either order, but for the order of the two. -/
theorem rearranged_updateAt {port port' : String} (hne : port ≠ port') (f f' : Tree → Tree)
    (data : Tree) :
    Rearranged ((data.updateAt f' (MergeMode.path port')).updateAt f (MergeMode.path port))
      ((data.updateAt f (MergeMode.path port)).updateAt f' (MergeMode.path port')) := by
  have hpath : ∀ (h : Tree → Tree) (name : String) (t : Tree), t.updateAt h (MergeMode.path name) =
      t.updateAt (·.updateChild name h) ["configuration", "interfaces"] := fun _ _ _ => rfl
  -- the two ways part at the names of the ports, so both are changes of the map that holds these
  rw [hpath, hpath, hpath, hpath, Tree.updateAt_updateAt fun _ _ => rfl,
    Tree.updateAt_updateAt fun _ _ => rfl]
  exact Rearranged.updateAt (fun s => Tree.updateChild_comm_rearranged s hne f f') data _

/-- After a mode has been set for an input, one can be set for another input as before. -/
theorem setMergeMode_other {port' : String} (h : g.setMergeMode node port mode = .ok g')
    (hport' : n.port? .input port' ≠ none) (hn : g.node? node = some n) :
    g'.setMergeMode node port' mode' = .ok (g.updateNode node (Node.withData fun data =>
      (data.updateAt mode.settings (MergeMode.path port)).updateAt mode'.settings
        (MergeMode.path port'))) := by
  obtain ⟨m, hm, hport, rfl⟩ := setMergeMode_eq_ok_iff.mp h
  have hn' := g.node?_withData node (·.updateAt mode.settings (MergeMode.path port))
  rw [hn, Option.map_some] at hn'
  rw [setMergeMode_eq_ok hn' hport', updateNode_withData]
  rfl

/-- **Setting a mode is done as a whole or not at all, and changes the data of one node.** It is
refused only if there is no such node or no such input, and then a graph that is changed in place
is as it was. Otherwise the settings of the interface of the input get the mode and keep
everything else, and so do the maps around them. For the same input the last mode wins, and for
two inputs the order of the calls shows in the order of entries at most. -/
theorem setMergeMode_local (h : g.WellFormed) (node port : String) (mode : MergeMode) :
    (∀ e, g.setMergeMode node port mode = .error e ↔ PortRefused g node port .input e) ∧
      (∀ e, g.setMergeMode node port mode = .error e →
        g.setMergeModeInPlace node port mode = (some e, g)) ∧
      ∀ g', g.setMergeMode node port mode = .ok g' →
        g.setMergeModeInPlace node port mode = (none, g') ∧
        (∃ n data, g.node? node = some n ∧ DataChanged g n data g' ∧
          ∃ configuration interfaces interface, InterfaceSet port mode
            (n.data.getD Tree.emptyMap) data configuration interfaces interface) ∧
        (∀ mode', g'.setMergeMode node port mode' = g.setMergeMode node port mode') ∧
        ∀ port' mode' g'', port' ≠ port → g.setMergeMode node port' mode' = .ok g'' →
          ∃ n first second data data', g'.setMergeMode node port' mode' = .ok first ∧
            g''.setMergeMode node port mode = .ok second ∧ DataChanged g n data first ∧
            DataChanged g n data' second ∧ Rearranged data data' := by
  refine ⟨fun e => setMergeMode_eq_error_iff, fun e herror => ?_, fun g' hok => ⟨?_, ?_, ?_, ?_⟩⟩
  · rw [setMergeModeInPlace_eq, herror]
  · rw [setMergeModeInPlace_eq, hok]
  · obtain ⟨n, hn, -, rfl⟩ := setMergeMode_eq_ok_iff.mp hok
    exact ⟨n, _, hn, h.dataChanged hn _, interfaceSet_updateAt port mode _⟩
  · exact fun mode' => setMergeMode_again hok
  · intro port' mode' g'' hne hok'
    -- both calls find the same node, and neither changes its inputs
    obtain ⟨n, hn, hport, -⟩ := setMergeMode_eq_ok_iff.mp hok
    obtain ⟨n', hn', hport', -⟩ := setMergeMode_eq_ok_iff.mp hok'
    obtain rfl : n = n' := Option.some.inj (hn.symm.trans hn')
    exact ⟨n, _, _, _, _, setMergeMode_other hok hport' hn, setMergeMode_other hok' hport hn,
      h.dataChanged hn _, h.dataChanged hn _, rearranged_updateAt hne _ _ _⟩

/-! ## A mixer -/

/-- A mixer with an input that has the name of a key on the way to its own settings. These are no
map yet, and there are entries at every level around them. -/
def mixer : Node where
  name := "mixer"
  domain := "bagel"
  typeName := "PIPE"
  inputs := [.named "in", .named "interfaces"]
  data := some (.map ⟨[("gain", .scalar (.int 2)),
    ("configuration", .map ⟨[("rate", .scalar (.int 100)),
      ("interfaces", .map ⟨[("interfaces", .text "none"), ("out", .seq [])]⟩)]⟩),
    ("note", .text "kept")]⟩)

/-- The mixer and a lamp without inputs. -/
def mixerGraph : Graph where
  nodes := [.ofType "lamp" "bagel" "LAMP", mixer]
  edges := [.between ⟨"lamp", "out", "mixer", "in"⟩]
  types := OrderedMap.empty

/-- The mixer with a mode for the input. -/
def mixedData : Tree :=
  .map ⟨[("gain", .scalar (.int 2)),
    ("configuration", .map ⟨[("rate", .scalar (.int 100)),
      ("interfaces", .map ⟨[("interfaces", .map ⟨[("merge", .text "MIN"),
        ("bias", .float (.ofInt 1000))]⟩), ("out", .seq [])]⟩)]⟩),
    ("note", .text "kept")]⟩

/-- The mixer with this mode. -/
def mixedGraph : Graph :=
  { mixerGraph with nodes := [.ofType "lamp" "bagel" "LAMP",
      { mixer with data := some mixedData }] }

/-- The mixer gets a mode, in place of another one and along with one for its other input. The lamp
has no input that could get one. -/
theorem mixerGraph_local :
    mixerGraph.setMergeMode "mixer" "interfaces" .min = .ok mixedGraph ∧
      mixerGraph.setMergeModeInPlace "mixer" "interfaces" .min = (none, mixedGraph) ∧
      mixerGraph.setMergeModeInPlace "lamp" "in" .min =
        (some (.unknownPort "lamp" "in"), mixerGraph) ∧
      (∃ n data, mixerGraph.node? "mixer" = some n ∧ DataChanged mixerGraph n data mixedGraph ∧
        ∃ configuration interfaces interface, InterfaceSet "interfaces" .min
          (n.data.getD Tree.emptyMap) data configuration interfaces interface) ∧
      mixedGraph.setMergeMode "mixer" "interfaces" .max =
        mixerGraph.setMergeMode "mixer" "interfaces" .max ∧
      ∃ n first second data data', mixedGraph.setMergeMode "mixer" "in" .sum = .ok first ∧
        (mixerGraph.setMergeMode "mixer" "in" .sum).bind
          (·.setMergeMode "mixer" "interfaces" .min) = .ok second ∧
        DataChanged mixerGraph n data first ∧ DataChanged mixerGraph n data' second ∧
        Rearranged data data' := by
  have hwf : mixerGraph.WellFormed := ⟨by decide, by decide⟩
  have hok : mixerGraph.setMergeMode "mixer" "interfaces" .min = .ok mixedGraph := rfl
  have herror : mixerGraph.setMergeMode "lamp" "in" .min = .error (.unknownPort "lamp" "in") := rfl
  -- the theorem at the call that succeeds and at one that is refused
  obtain ⟨-, -, hset⟩ := setMergeMode_local hwf "mixer" "interfaces" .min
  obtain ⟨-, hrefused, -⟩ := setMergeMode_local hwf "lamp" "in" .min
  obtain ⟨hplace, hdata, hagain, hother⟩ := hset _ hok
  obtain ⟨n, first, second, data, data', hfirst, hsecond, h, h', hsame⟩ :=
    hother "in" .sum _ (by decide) rfl
  exact ⟨hok, hplace, hrefused _ herror, hdata, hagain .max, n, first, second, data, data', hfirst,
    hsecond, h, h', hsame⟩

end Graph
end ModelGraph
