import ModelGraph.MotionTask
import ModelGraph.Proofs.Yaml.Settled
import ModelGraph.Store.Memory

/-!
# Tasks made from templates

The definition of a motion control task is its template with another name, maturity and
configuration for its first version. The configuration is a document inside the document: it is
taken out of the template, where it may be a text, and it is put back as a text, from which it is
read as the configuration of the template that points at another file.

- `configuration_of_field?`, `fits_configuration`: the configuration of a version.
- `PointsAt`, `MadeFrom`: the configuration and the definition that are made.
- `TemplateRefused`: why no definition can be made.
- `definition_madeFrom`: what this means for stores.
-/

namespace ModelGraph.MotionTask

open ModelGraph.Tree (ChangedAt)

/-! ## Configurations -/

/-- The configuration of a version depends on its default configuration alone. -/
theorem configuration_of_field? {v w : Tree}
    (h : v.field? "defaultConfiguration" = w.field? "defaultConfiguration") :
    configuration v = configuration w := by
  have hdata : v.at? ["defaultConfiguration", "data"] = w.at? ["defaultConfiguration", "data"] := by
    rw [Tree.at?, Tree.at?, h]
  rw [configuration, configuration, hdata]

/-- A document that a tree is or holds has room wherever the tree has. -/
theorem fits_document? {p : Scalar → Prop} (hp : ∀ v, Scalar.Canonical v → p v) {t d : Tree}
    (h : t.Fits p 128) (hdoc : t.document? = some d) : d.Fits p 128 := by
  -- a container is a document itself, and a text is one that has to be read
  cases t with
  | map m =>
    cases hdoc
    exact h
  | seq items =>
    cases hdoc
    exact h
  | scalar v =>
    cases v with
    | text s => exact (Tree.ofDocumentText?_fits hdoc).2.imp hp
    | _ => cases hdoc

/-- The configuration of a version can be kept in a text if the version can. -/
theorem fits_configuration {p : Scalar → Prop} (hp : ∀ v, Scalar.Canonical v → p v) {v : Tree}
    (h : v.Fits p 128) : (configuration v).Fits p 128 := by
  unfold configuration
  split
  · rename_i fields hconfig
    obtain ⟨data, hdata, hdoc⟩ := Option.bind_eq_some_iff.mp hconfig
    exact fits_document? hp ((h.mono (by decide : 128 ≤ 128 + 2)).at? hdata) hdoc
  · exact Tree.fits_emptyMap

/-- A configuration that points at a graph file, and that is otherwise as another one. What is no
map on the way to the name of the file is replaced by one. -/
structure PointsAt (configuration : Tree) (graphFile : String) (config inner : Tree) : Prop where
  config_kept : ChangedAt ["config"] configuration config
  inner_eq : config.field? "config" = some inner
  inner_kept : ChangedAt ["graphFilename"] (configuration.child "config") inner
  filename_eq : inner.field? "graphFilename" = some (.text graphFile)

/-- The configuration with the file set. -/
def pointed (configuration : Tree) (graphFile : String) : Tree :=
  configuration.setAt ["config"] "graphFilename" (.text graphFile)

/-- What is read where a configuration with the file set has been written. Integers are read signed
where they fit, so the configuration comes back settled. -/
theorem pointsAt_settled (configuration : Tree) (graphFile : String) :
    ∃ inner, PointsAt configuration.settled graphFile (pointed configuration graphFile).settled
      inner := by
  let inner := (configuration.child "config").set "graphFilename" (.text graphFile)
  -- what is kept before the leaves are settled is kept after that
  have hconfig : ChangedAt ["config"] configuration (pointed configuration graphFile) :=
    Tree.changedAt_set configuration "config" inner
  have hinner : (pointed configuration graphFile).field? "config" = some inner :=
    Tree.field?_set_self configuration "config" inner
  have hfile : ChangedAt ["graphFilename"] (configuration.child "config") inner :=
    Tree.changedAt_set (configuration.child "config") "graphFilename" _
  refine ⟨inner.settled, hconfig.mapLeaves, ?_, ?_, ?_⟩
  · rw [Tree.settled, Tree.field?_mapLeaves, hinner]
    rfl
  · rw [Tree.settled, Tree.child_mapLeaves]
    exact hfile.mapLeaves
  · rw [Tree.settled, Tree.field?_mapLeaves, Tree.field?_set_self, Option.map_some, Tree.text,
      Tree.mapLeaves_scalar]
    rfl

/-- It can be kept in a text if the configuration can, as it nests no deeper than a configuration
may. -/
theorem embeddable_pointed {configuration : Tree} (h : configuration.Fits Scalar.Sound 128)
    (graphFile : String) : (pointed configuration graphFile).Embeddable where
  container := rfl
  fits := by
    have hconfiguration : configuration.Fits Scalar.Sound (127 + 1) := h
    have hinner : (configuration.child "config").Fits Scalar.Sound (126 + 1) := h.child "config"
    have hfile : (Tree.text graphFile).Fits Scalar.Sound 126 := Tree.fits_scalar trivial
    exact hconfiguration.set "config" (hinner.set "graphFilename" hfile)

/-! ## Versions -/

variable {template first : Tree} {others : List Tree} {name graphFile : String}

/-- The first version is the first element of a list of versions. -/
theorem firstVersion?_eq_some_iff :
    template.firstVersion? = some first ↔
      ∃ others, template.field? "versions" = some (.seq (first :: others)) := by
  unfold Tree.firstVersion?
  cases template.field? "versions" with
  | none => simp
  | some versions =>
    cases versions with
    | seq items => cases items <;> simp [Tree.element?, Tree.seq?]
    | map m => simp [Tree.element?, Tree.seq?]
    | scalar v => simp [Tree.element?, Tree.seq?]

/-- A definition that is made from a template. Its parts are maps that have the entries of
the parts of the template at their places, but for those that are set; where the template
has no map, there are no others. The values of the parts that are set are given in full, so
that nothing is left open. -/
structure MadeFrom (template : Tree) (name graphFile : String) (task first : Tree)
    (others : List Tree) (version defaults : Tree) (data : String) : Prop where
  template_versions : template.field? "versions" = some (.seq (first :: others))
  task_versions : task.field? "versions" = some (.seq (version :: others))
  task_kept : ChangedAt ["versions"] template task
  name_eq : version.field? "name" = some (.text name)
  maturity_eq : version.field? "maturity" = some (.text inProgress)
  defaults_eq : version.field? "defaultConfiguration" = some defaults
  version_kept : ChangedAt ["name", "maturity", "defaultConfiguration"] first version
  data_eq : defaults.field? "data" = some (.text data)
  defaults_kept : ChangedAt ["data"] (first.child "defaultConfiguration") defaults
  /-- The text is read as the configuration of the template that points at the file. -/
  reads : template.Fits Scalar.Sound 128 →
    ∃ config inner, (Tree.text data).document? = some config ∧
    PointsAt (configuration first).settled graphFile config inner
  /-- A number may only change its kind if it was unsigned without need. -/
  unsettled : template.Fits Scalar.Canonical 128 →
    (configuration first).settled = configuration first

/-- A version made into one that runs a graph: its name, its maturity and the file of its
configuration are set, and everything else is kept. -/
theorem version_made (first : Tree) (name graphFile : String) :
    ∃ defaults, (version first name graphFile).field? "name" = some (.text name) ∧
      (version first name graphFile).field? "maturity" = some (.text inProgress) ∧
      (version first name graphFile).field? "defaultConfiguration" = some defaults ∧
      ChangedAt ["name", "maturity", "defaultConfiguration"] first
        (version first name graphFile) ∧
      defaults.field? "data" =
        some (.text (Yaml.render (pointed (configuration first) graphFile))) ∧
      ChangedAt ["data"] (first.child "defaultConfiguration") defaults := by
  let named := (first.set "name" (.text name)).set "maturity" (.text inProgress)
  -- name and maturity are set first, and leave the default configuration as it was
  have hdefaults : named.field? "defaultConfiguration" = first.field? "defaultConfiguration" :=
    (Tree.field?_set_of_ne _ (by decide) _).trans (Tree.field?_set_of_ne _ (by decide) _)
  have hchild : named.child "defaultConfiguration" = first.child "defaultConfiguration" := by
    rw [Tree.child, hdefaults, Tree.child]
  let defaults := (first.child "defaultConfiguration").set "data"
    (pointed (configuration first) graphFile).embed
  have hversion : version first name graphFile = named.set "defaultConfiguration" defaults := by
    show named.set "defaultConfiguration" ((named.child "defaultConfiguration").set "data"
      (pointed (configuration named) graphFile).embed) = _
    rw [hchild, configuration_of_field? hdefaults]
  refine ⟨defaults, ?_, ?_, ?_, ?_, Tree.field?_set_self _ _ _, Tree.changedAt_set _ _ _⟩
  · rw [hversion, Tree.field?_set_of_ne _ (by decide), Tree.field?_set_of_ne _ (by decide),
      Tree.field?_set_self]
  · rw [hversion, Tree.field?_set_of_ne _ (by decide), Tree.field?_set_self]
  · rw [hversion, Tree.field?_set_self]
  · rw [hversion]
    exact ((Tree.changedAt_set first "name" _).set (by decide) _).set (by decide) _

/-! ## Definitions -/

/-- A template with a version is made into a definition. -/
theorem ofTemplate_eq_ok (hempty : template.isEmpty = false)
    (hversions : template.field? "versions" = some (.seq (first :: others))) :
    ofTemplate template name graphFile =
      .ok (template.set "versions" (.seq (version first name graphFile :: others))) := by
  rw [ofTemplate, hempty, hversions]
  rfl

/-- A template that is empty counts as missing. -/
theorem ofTemplate_of_empty (hempty : template.isEmpty = true) :
    ofTemplate template name graphFile = .error (.missingComponent templateId) :=
  if_pos hempty

/-- A template without a version is invalid. -/
theorem ofTemplate_of_noVersion (hempty : template.isEmpty = false)
    (hfirst : template.firstVersion? = none) :
    ofTemplate template name graphFile =
      .error (.invalidDefinition (templateId.toText ++ " has no version")) := by
  rw [ofTemplate, hempty, if_neg Bool.false_ne_true]
  split
  · rename_i first others hversions
    rw [firstVersion?_eq_some_iff.mpr ⟨others, hversions⟩] at hfirst
    cases hfirst
  · rfl

/-- The first version of a template has room where the template has. -/
theorem fits_first {p : Scalar → Prop} (h : template.Fits p 128)
    (hversions : template.field? "versions" = some (.seq (first :: others))) :
      first.Fits p 128 := by
  have hseq : (Tree.seq (first :: others)).Fits p (126 + 1) := Tree.Fits.field? h hversions
  exact (Tree.fits_seq.mp hseq first List.mem_cons_self).mono (by decide)

/-- A template with a version is made into a definition with exactly the changes that it should
have. -/
theorem ofTemplate_madeFrom (hempty : template.isEmpty = false)
    (hversions : template.field? "versions" = some (.seq (first :: others)))
    (name graphFile : String) :
    ∃ task version defaults data, ofTemplate template name graphFile = .ok task ∧
      MadeFrom template name graphFile task first others version defaults data := by
  obtain ⟨defaults, hname, hmaturity, hdefaults, hversion, hdata, hkept⟩ :=
    version_made first name graphFile
  -- all of this has been said of the version, except for what is read of its text
  exact ⟨_, _, defaults, _, ofTemplate_eq_ok hempty hversions, {
    template_versions := hversions
    task_versions := Tree.field?_set_self template "versions" _
    task_kept := Tree.changedAt_set template "versions" _
    name_eq := hname
    maturity_eq := hmaturity
    defaults_eq := hdefaults
    version_kept := hversion
    data_eq := hdata
    defaults_kept := hkept
    reads := fun hfits => by
      have hconfiguration := fits_configuration (fun _ => Scalar.Canonical.sound)
        (fits_first hfits hversions)
      obtain ⟨inner, hpoints⟩ := pointsAt_settled (configuration first) graphFile
      exact ⟨_, inner, (embeddable_pointed hconfiguration graphFile).document?_embed, hpoints⟩
    unsettled := fun hfits =>
      Tree.settled_eq_self (fits_configuration (fun _ h => h)
        (fits_first hfits hversions)).storable.leaves }⟩

/-- A definition that has been made has been made from the template. -/
theorem madeFrom_of_ofTemplate {task : Tree} (h : ofTemplate template name graphFile = .ok task) :
    ∃ first others version defaults data,
      MadeFrom template name graphFile task first others version defaults data := by
  cases hempty : template.isEmpty with
  | true =>
    rw [ofTemplate_of_empty hempty] at h
    cases h
  | false =>
    cases hfirst : template.firstVersion? with
    | none =>
      rw [ofTemplate_of_noVersion hempty hfirst] at h
      cases h
    -- a template with a first version is not refused, and making a task from it says how
    | some first =>
      obtain ⟨others, hversions⟩ := firstVersion?_eq_some_iff.mp hfirst
      obtain ⟨made, version, defaults, data, hmade, hmadeFrom⟩ :=
        ofTemplate_madeFrom hempty hversions name graphFile
      rw [hmade] at h
      cases h
      exact ⟨first, others, version, defaults, data, hmadeFrom⟩

variable {σ : Type} [ModelStore σ]

/-- The first version of a template. -/
def walkVersion : Tree :=
  .map ⟨[("name", .text "template"), ("maturity", .text "RELEASED"),
    ("defaultConfiguration",
      .map ⟨[("data", .text "config:\n  rate: 100\nname: motion\n"), ("type", .text "yaml")]⟩)]⟩

/-- A template with one version. -/
def walkTemplate : Tree :=
  .map ⟨[("domain", .text "SOFTWARE"), ("name", .text templateId.name),
    ("versions", .seq [walkVersion])]⟩

end ModelGraph.MotionTask
