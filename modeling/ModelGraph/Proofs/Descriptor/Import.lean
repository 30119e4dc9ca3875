import ModelGraph.Descriptor.Import
import ModelGraph.Proofs.Descriptor.Staging
import ModelGraph.Proofs.Descriptor.Storable

/-!
# Imported descriptors

A compiled descriptor is written as text, the text is read again, and what has been read is
imported. Every task passes two encodings on the way: its entry is part of the text of the
descriptor, and the definition holds it as a text of its own. It comes out of both as it was.

- `Import.tasks_toTree`: the tasks of the document of a descriptor.
- `Recovered`: what a definition says about the tasks of a descriptor.
- `compile_imported`: an imported definition recovers the compiled tasks.
-/

namespace ModelGraph

variable {g : Graph} {o : CompileOptions} {c : Compiled}

/-! ## Reading definitions -/

namespace Import

/-- The components of a definition, which are those of its first version. -/
def componentsOf? (definition : Tree) : Option Tree :=
  definition.firstVersion?.bind (·.field? "components")

/-- The name and the model of a node of a definition. -/
def nodeOf (node : Tree) : Option Tree × Option Tree :=
  (node.field? "name", node.at? ["model", "name"])

/-- The name of a task and the document that is kept for it as text. -/
def configurationOf (configuration : Tree) : Option Tree × Option Tree :=
  (configuration.field? "name",
    ((configuration.field? "data").bind Tree.string?).bind fun s => (Tree.text s).document?)

/-- The tasks of the document of a descriptor are those of the descriptor. -/
theorem tasks_toTree (d : Descriptor) :
    tasks d.toTree = d.tasks.toList.map fun (task, entry) => (task, entry.toTree) := rfl

/-- A node that is made for a task has its name, and its type as the model. -/
theorem nodeOf_taskNode (task : String) (entry : TaskEntry) :
    nodeOf (taskNode task entry.toTree) = (some (.text task), some (.text entry.typeName)) := by
  have hmodel : (taskNode task entry.toTree).at? ["model", "name"] =
      some ((entry.toTree.field? "type").getD (.text "")) := rfl
  rw [nodeOf, hmodel, entry.toTree_type]
  rfl

/-- A document that is kept as text is read back, if it is no single leaf. -/
theorem document?_embed {t : Tree} (ht : t.isScalar = false) (hstorable : t.Storable Yaml.Readable)
    (hdepth : t.height ≤ 128) : t.embed.document? = some t :=
  Tree.document?_embed_of_readTree (Yaml.readTree_of_storable hstorable hdepth) ht

/-- The task of a configuration, and its entry. -/
theorem configurationOf_taskConfiguration (task : String) {entry : Tree}
    (hentry : entry.isScalar = false) (hstorable : entry.Storable Yaml.Readable)
    (hdepth : entry.height ≤ 128) :
    configurationOf (taskConfiguration task entry) = (some (.text task), some entry) :=
  congrArg (some (Tree.text task), ·) (document?_embed hentry hstorable hdepth)

/-- The configuration holds a text for each task; without tasks there is none. -/
theorem components_configuration (tasks : List (String × Tree)) :
    (components tasks).field? "configuration" =
      if tasks.isEmpty then none
      else some (.map ⟨[("nodes", .seq (tasks.map fun (task, entry) =>
        taskConfiguration task entry))]⟩) := by
  cases tasks <;> rfl

end Import

/-! ## Compiled descriptors -/

/-- What a definition says about the tasks of a compiled graph. Each entry is kept as a text of its
own, so it is said of the document that is read from this text. -/
structure Recovered (g : Graph) (o : CompileOptions) (c : Compiled) (name : String)
    (definition : Tree) : Prop where
  /-- The compiled tasks are the task nodes in their order, each with its compiled type. -/
  tasks : c.descriptor.tasks.toList.map (fun (task, entry) => (task, entry.typeName)) =
    (g.nodes.filter o.isTask).map fun n => (n.name, n.compiledType)
  /-- There is one node for each task, in order, with the name of the task and with its type as the
  model. -/
  nodes : ∃ nodes : List Tree,
    (Import.componentsOf? definition).bind (·.field? "nodes") = some (.seq nodes) ∧
      nodes.map Import.nodeOf = c.descriptor.tasks.toList.map fun (task, entry) =>
        (some (.text task), some (.text entry.typeName))
  /-- Without tasks there is no configuration. -/
  absent : c.descriptor.tasks.isEmpty = true →
    (Import.componentsOf? definition).bind (·.field? "configuration") = none
  /-- Otherwise there is one for each task, in order, and its text holds the entry of the task. -/
  configurations : c.descriptor.tasks.isEmpty = false → ∃ configurations : List Tree,
    (Import.componentsOf? definition).bind (·.at? ["configuration", "nodes"]) =
        some (.seq configurations) ∧
      configurations.map Import.configurationOf = c.descriptor.tasks.toList.map fun (task, entry) =>
        (some (.text task), some entry.toTree)
  /-- The definition has an identity, unless the component has no name. -/
  identity : name ≠ "" → ComponentId.ofDefinition definition = .ok ⟨"software", name, "v0.0.1"⟩

/-- The entry of a task can be kept in a text if the descriptor can. -/
theorem Descriptor.entry_readable {d : Descriptor} (hstorable : d.toTree.Storable Yaml.Readable)
    (hdepth : d.toTree.height ≤ 128) {task : String} {entry : TaskEntry}
    (h : (task, entry) ∈ d.tasks.toList) :
    entry.toTree.Storable Yaml.Readable ∧ entry.toTree.height ≤ 128 := by
  let entries := d.tasks.mapValues fun _ t => t.toTree
  have hsection : d.toTree.field? "tasks" = some (.map entries) := rfl
  have hentries : Tree.Storable Yaml.Readable (.map entries) := hstorable.field? hsection
  -- the entry of a task stands in the section of the tasks, under the name of the task
  have hmem : (task, entry.toTree) ∈ entries.entries := List.mem_map.mpr ⟨_, h, rfl⟩
  have hentry : (Tree.map entries).field? task = some entry.toTree :=
    ((Tree.storable_entries.mp hentries).1.get?_eq_some_iff task _).mpr hmem
  -- an entry nests less deeply than the document that it is part of
  have hbelow := Tree.height_lt_of_field? hsection
  have hlast := Tree.height_lt_of_field? hentry
  exact ⟨hentries.field? hentry, by omega⟩

/-- An imported definition holds the tasks of the descriptor whose document it is made from, each
with the entry that it had there. Its identity is the name that was asked for. -/
theorem definition_recovered (hwf : g.WellFormed) (h : g.compile o = .ok c)
    (hstorable : c.descriptor.toTree.Storable Yaml.Readable)
    (hdepth : c.descriptor.toTree.height ≤ 128) (name modelPath : String) (date : Timestamp) :
    Recovered g o c name (Import.definition c.descriptor.toTree name modelPath date) := by
  have hcomponents :
      Import.componentsOf? (Import.definition c.descriptor.toTree name modelPath date) =
        some (Import.components (Import.tasks c.descriptor.toTree)) := rfl
  exact {
    tasks := by
      obtain ⟨d, hplaced, rfl⟩ := compile_placed hwf h
      change d.tasks.toList.map _ = _
      rw [hplaced.tasks, OrderedMap.toList, List.map_map]
      rfl
    nodes := by
      rw [hcomponents, Import.tasks_toTree]
      refine ⟨_, rfl, ?_⟩
      rw [List.map_map, List.map_map]
      exact List.map_congr_left fun task _ => Import.nodeOf_taskNode task.1 task.2
    absent := fun hempty => by
      have hnone : c.descriptor.tasks.toList = [] := List.isEmpty_iff.mp hempty
      rw [hcomponents, Import.tasks_toTree, hnone]
      rfl
    configurations := fun hsome => by
      have hne : (Import.tasks c.descriptor.toTree).isEmpty = false := by
        rw [Import.tasks_toTree, List.isEmpty_map]
        exact hsome
      rw [hcomponents, Option.bind_some, Tree.at?, Import.components_configuration, hne]
      refine ⟨_, rfl, ?_⟩
      rw [Import.tasks_toTree, List.map_map, List.map_map]
      refine List.map_congr_left fun task hmem => ?_
      -- the entry is a part of the document, so its own text can be read as well
      obtain ⟨hentry, hheight⟩ := c.descriptor.entry_readable hstorable hdepth hmem
      exact Import.configurationOf_taskConfiguration task.1 rfl hentry hheight
    identity := fun hname => by
      have hrequired : ComponentId.required
          (Import.definition c.descriptor.toTree name modelPath date) "name" = .ok name :=
        ComponentId.required_eq_ok rfl rfl hname
      unfold ComponentId.ofDefinition
      rw [hrequired]
      rfl }

/-- **Importing a compiled descriptor recovers the compiled tasks.** The descriptor of a graph is
read back from its text as it was written, if the trees that it takes over repeat no key and have
their numbers in their only form, and if it nests no deeper than can be read. The definition that is
made from it has the tasks in their order, with their types, and with their entries as texts that
hold the same documents. -/
theorem compile_imported (hwf : g.WellFormed) (h : g.compile o = .ok c)
    (htrees : ∀ t ∈ g.exported o, t.Storable Scalar.Canonical)
    (hdepth : c.descriptor.toTree.height ≤ 128) (name modelPath : String) (date : Timestamp) :
    ∃ document, Yaml.readTree c.descriptor.toYaml = .ok document ∧
      document = c.descriptor.toTree ∧
      Recovered g o c name (Import.definition document name modelPath date) := by
  have htext : ∀ s, Tree.Storable Yaml.Readable (.text s) := fun _ =>
    Tree.storable_scalar.mpr trivial
  have hstorable := compile_storable htext hwf h fun t ht =>
    (htrees t ht).imp fun _ => Yaml.readable_of_canonical
  -- what is read is the written tree itself, so importing it is what has been shown above
  exact ⟨_, Yaml.readTree_of_storable hstorable hdepth, rfl,
    definition_recovered hwf h hstorable hdepth name modelPath date⟩

/-- Data with a type and a state of its own, an inner configuration, texts that look like something
else, and blank values. -/
def eyeData : Tree :=
  .map ⟨[("type", .text "fast"), ("fps", .scalar (.int 30)),
    ("gain", .float (.finite false 7205759403792794 (-56))),
    ("configuration", .map ⟨[("state", .text "null"), ("", .text "- a\n- 'b'\n")]⟩),
    ("description", .text "dropped"), ("blank", .text " ")]⟩

/-- Two eyes, of which the left one has data. -/
def eyesGraph : Graph where
  nodes := [
    { name := "left: 1", domain := "software", typeName := "camera::usb::Task",
      modelName := "camera::Task", data := some eyeData },
    { name := "~", domain := "software", typeName := "camera::usb::Task" }]
  edges := [{ ends := ⟨"left: 1", "image", "~", "image"⟩, transport := some (.bool true) }]
  types := OrderedMap.empty

set_option maxRecDepth 10000 in
/-- Both eyes come back from the text of their descriptor. -/
theorem eyesGraph_imported :
    eyesGraph.WellFormed ∧ ∃ c, eyesGraph.compile {} = .ok c ∧
      (∀ t ∈ eyesGraph.exported {}, t.Storable Scalar.Canonical) ∧
      c.descriptor.toTree.height ≤ 128 ∧
      ∃ document, Yaml.readTree c.descriptor.toYaml = .ok document ∧
        document = c.descriptor.toTree ∧
        Recovered eyesGraph {} c "rover"
          (Import.definition document "rover" "/models" ⟨2024, 5, 1, 12, 30, 0⟩) := by
  have hwf : eyesGraph.WellFormed := ⟨by decide, by decide⟩
  have hexported : eyesGraph.exported {} = [eyeData, .bool true] := by decide +kernel
  have hgain : (Binary64.finite false 7205759403792794 (-56)).Canonical :=
    ⟨by decide, by decide, by decide, by decide⟩
  have htrees : ∀ t ∈ eyesGraph.exported {}, t.Storable Scalar.Canonical := by
    rw [hexported]
    simp [eyeData, Tree.text, Tree.bool, Tree.float, Scalar.Canonical, hgain]
  have hall : (eyesGraph.compile {}).toOption.any (fun c => c.descriptor.toTree.height ≤ 128) =
      true := by decide +kernel
  cases h : eyesGraph.compile {} with
  | error e =>
    rw [h] at hall
    cases hall
  | ok c =>
    rw [h] at hall
    have hdepth : c.descriptor.toTree.height ≤ 128 := of_decide_eq_true hall
    exact ⟨hwf, c, rfl, htrees, hdepth, compile_imported hwf h htrees hdepth _ _ _⟩

/-- A sequence in a sequence and so on. -/
def nested : Nat → Tree
  | 0 => .seq []
  | levels + 1 => .seq [nested levels]

/-- It has no leaves and no keys, so it can be kept in a text as far as these go. -/
theorem storable_nested {p : Scalar → Prop} (levels : Nat) : (nested levels).Storable p := by
  induction levels with
  | zero => exact Tree.storable_seq.mpr nofun
  | succ levels ih => exact Tree.storable_seq.mpr (List.forall_mem_singleton.mpr ih)

/-- Two eyes without data, joined by an edge whose transport nests deeply. -/
def deepGraph : Graph where
  nodes := [.ofType "left" "software" "camera::Task", .ofType "right" "software" "camera::Task"]
  edges := [{ ends := ⟨"left", "image", "right", "image"⟩, transport := some (nested 125) }]
  types := OrderedMap.empty

set_option maxRecDepth 10000 in
/-- Where an edge nests too deeply the text of the descriptor cannot be read, whatever the data of
the tasks is. The transport alone could be. -/
theorem deepGraph_unreadable :
    deepGraph.WellFormed ∧ (∀ n ∈ deepGraph.nodes, n.data = none) ∧
      (∀ t ∈ deepGraph.exported {}, t.Storable Scalar.Canonical ∧ t.height ≤ 128) ∧
      ∃ c, deepGraph.compile {} = .ok c ∧ ∃ e, Yaml.readTree c.descriptor.toYaml = .error e := by
  have hwf : deepGraph.WellFormed := ⟨by decide, by decide⟩
  have hexported : deepGraph.exported {} = [nested 125] := by decide +kernel
  have htrees : ∀ t ∈ deepGraph.exported {}, t.Storable Scalar.Canonical ∧ t.height ≤ 128 := by
    rw [hexported, List.forall_mem_singleton]
    exact ⟨storable_nested 125, by decide +kernel⟩
  have hall : (deepGraph.compile {}).toOption.any
      (fun c => !(Yaml.readTree c.descriptor.toYaml).toOption.isSome) = true := by
    -- the text is not evaluated: reading it is reading the events of the tree
    simp only [Descriptor.toYaml, Yaml.readTree_render_eq]
    decide +kernel
  cases h : deepGraph.compile {} with
  | error e =>
    rw [h] at hall
    cases hall
  | ok c =>
    rw [h] at hall
    refine ⟨hwf, by decide, htrees, c, rfl, ?_⟩
    cases hread : Yaml.readTree c.descriptor.toYaml with
    | error e => exact ⟨e, rfl⟩
    | ok t =>
      rw [Except.toOption, Option.any_some, hread] at hall
      cases hall

end ModelGraph
