import ModelGraph.Proofs.Resolution.Alike
import ModelGraph.Proofs.Yaml.Settled

/-!
# Spellings of definitions

A definition holds its components and its mechanics data either as they are or as YAML text, and a
document without versions may have its components at the top. However a definition is spelled, its
fragment is the same, and so is what becomes of it in a resolution.

- `Tree.HeldAs`, `Spells`: the spellings of a document and of a definition.
- `Spells.fragment_eq`: the fragment of a spelling.
- `Respelled`, `SpelledApart`: documents and sources that differ in spellings.
- `Spells.resolved_alike`: what this means for resolutions.
-/

namespace ModelGraph

/-! ## Documents inside documents -/

/-- How a document is held inside another one. -/
inductive Tree.HeldAs (t : Tree) : Tree → Prop where
  | direct : HeldAs t t
  | text : HeldAs t t.embed

namespace Tree

variable {t held : Tree}

/-- The entry of a document, with its numbers settled where the document is held as text. -/
theorem HeldAs.field? (h : t.HeldAs held) (ht : t.Embeddable) (key : String) :
    held.document?.bind (·.field? key) = t.field? key ∨
      held.document?.bind (·.field? key) = (t.field? key).map settled := by
  cases h with
  | direct =>
    rw [document?_of_container ht.container]
    exact .inl rfl
  | text =>
    rw [ht.document?_embed]
    exact .inr (field?_mapLeaves t key)

/-- A leaf has the same text whether it is settled or not. -/
theorem text?_settled (t : Tree) : t.settled.text? = t.text? :=
  text?_mapLeaves Scalar.toText_settled t

end Tree

/-! ## Fragments -/

namespace Fragment

/-- So have the leaves at the ends of paths. -/
theorem textAt_settled (entry : Tree) (path : List String) :
    textAt entry.settled path = textAt entry path := by
  rw [textAt, textAt, Tree.settled, Tree.at?_mapLeaves, Option.bind_map]
  exact congrArg (fun text => ((entry.at? path).bind text).getD "") (funext Tree.text?_settled)

/-- A node says the same whether its numbers are settled or not, as all of it is texts. -/
theorem node?_settled (entry : Tree) : node? entry.settled = node? entry := by
  simp only [node?, textAt_settled]

variable {t held : Tree}

/-- The nodes of a container depend on the entry for nodes alone. -/
theorem nodesOf_of_field? {t t' : Tree} (ht : t.isScalar = false) (ht' : t'.isScalar = false)
    (h : t.field? "nodes" = t'.field? "nodes") : nodesOf t = nodesOf t' := by
  rw [nodesOf, nodesOf, Tree.document?_of_container ht, Tree.document?_of_container ht',
    Option.bind_some, Option.bind_some, h]

/-- The nodes of a component document, however it is held. -/
theorem nodesOf_heldAs (h : t.HeldAs held) (ht : t.Embeddable) : nodesOf held = nodesOf t := by
  rw [nodesOf, nodesOf, Tree.document?_of_container ht.container, Option.bind_some]
  -- the field holds the nodes as they are or settled, and both are read alike
  rcases h.field? ht "nodes" with hnodes | hnodes <;> rw [hnodes]
  cases t.field? "nodes" with
  | none => rfl
  | some nodes =>
    rw [Option.map_some, Option.bind_some, Option.bind_some, Tree.settled, Tree.seq?_mapLeaves]
    cases nodes.seq? with
    | none => rfl
    | some entries =>
      rw [Option.map_some]
      dsimp only
      rw [List.filterMap_map]
      exact congrArg (List.filterMap · entries) (funext node?_settled)

/-- The control subgraph that mechanics data names, however the data is held. -/
theorem controlOf_heldAs (h : t.HeldAs held) (ht : t.Embeddable) {mechanics : Tree}
    (hdata : mechanics.field? "data" = some held) :
    controlOf mechanics = controlOf (.map ⟨[("data", t)]⟩) := by
  have hplain : (Tree.map ⟨[("data", t)]⟩).field? "data" = some t := rfl
  rw [controlOf, controlOf, hdata, hplain, Option.bind_some, Option.bind_some,
    Tree.document?_of_container ht.container, Option.bind_some]
  rcases h.field? ht "bagel_control" with hcontrol | hcontrol <;> rw [hcontrol]
  cases t.field? "bagel_control" with
  | none => rfl
  | some control => rw [Option.map_some, Option.bind_some, Option.bind_some, Tree.text?_settled]

end Fragment

/-! ## Definitions -/

/-- The spellings of a definition with some components and some mechanics data. -/
inductive Spells (components data : Tree) : Tree → Prop where
  -- a definition with versions, of which the first one counts
  | versioned {document version componentsHeld mechanics dataHeld : Tree}
      (hversion : document.firstVersion? = some version)
      (hcomponents : version.field? "components" = some componentsHeld)
      (componentsAs : components.HeldAs componentsHeld)
      (hmechanics : version.field? "mechanicsData" = some mechanics)
      (hdata : mechanics.field? "data" = some dataHeld) (dataAs : data.HeldAs dataHeld) :
      Spells components data document
  -- the components themselves, with the mechanics data as one more entry
  | bare {fields document : OrderedMap Tree} {mechanics dataHeld : Tree}
      (hcomponents : components = .map fields) (hversions : "versions" ∉ fields.keys)
      (hfields : document.erase "mechanicsData" = fields)
      (hmechanics : document.get? "mechanicsData" = some mechanics)
      (hdata : mechanics.field? "data" = some dataHeld) (dataAs : data.HeldAs dataHeld) :
      Spells components data (.map document)

namespace Spells

variable {components data d d' : Tree}

/-- No spelling of a definition is empty, so none is taken for a missing component. -/
theorem isEmpty_eq_false (h : Spells components data d) : d.isEmpty = false := by
  cases h with
  | versioned hversion _ _ _ _ _ =>
    -- a definition with versions, or with mechanics, is not empty
    cases d with
    | map m =>
      obtain ⟨_ | _⟩ := m
      · cases hversion
      · rfl
    | seq items => cases hversion
    | scalar v => cases hversion
  | @bare _ document _ _ _ _ _ hmechanics _ _ =>
    obtain ⟨_ | _⟩ := document
    · cases hmechanics
    · rfl

/-- **The fragment of a definition does not depend on its spelling.** It is that of its components
and of its mechanics data. -/
theorem fragment_eq (hcomponents : components.Embeddable) (hdata : data.Embeddable)
    (h : Spells components data d) :
    Fragment.ofDocument d =
      Fragment.ofParts (some components) (some (.map ⟨[("data", data)]⟩)) := by
  cases h with
  | versioned hversion hheld componentsAs hmechanics hdataHeld dataAs =>
    simp only [Fragment.ofDocument, hversion, hheld, hmechanics, Fragment.ofParts, Option.map_some,
      Option.bind_some, Fragment.nodesOf_heldAs componentsAs hcomponents,
      Fragment.controlOf_heldAs dataAs hdata hdataHeld]
  | @bare fields document mechanics _ hmap hversions hfields hmechanics hdataHeld dataAs =>
    subst hmap
    have hfield : ∀ key ≠ "mechanicsData", (Tree.map document).field? key = fields.get? key :=
      fun key hne => hfields ▸ (document.get?_erase_of_ne hne).symm
    -- there are no versions, and the nodes are those of the components
    have hversion : (Tree.map document).firstVersion? = none := by
      rw [Tree.firstVersion?, hfield "versions" (by decide),
        (fields.get?_eq_none_iff "versions").mpr hversions]
      rfl
    have hnodes : Fragment.nodesOf (.map document) = Fragment.nodesOf (.map fields) :=
      Fragment.nodesOf_of_field? rfl rfl (hfield "nodes" (by decide))
    have hmech : (Tree.map document).field? "mechanicsData" = some mechanics := hmechanics
    simp only [Fragment.ofDocument, hversion, hmech, Fragment.ofParts, Option.map_some,
      Option.bind_some, hnodes, Fragment.controlOf_heldAs dataAs hdata hdataHeld]

/-- Two spellings of a definition say the same to a resolution. -/
theorem alike (hcomponents : components.Embeddable) (hdata : data.Embeddable)
    (h : Spells components data d) (h' : Spells components data d') : Tree.Alike d d' where
  isEmpty := h'.isEmpty_eq_false.trans h.isEmpty_eq_false.symm
  fragment := (h'.fragment_eq hcomponents hdata).trans (h.fragment_eq hcomponents hdata).symm

end Spells

/-! ## Sources -/

/-- The same document, or another spelling of the definition. -/
def Respelled (components data d d' : Tree) : Prop :=
  d' = d ∨ Spells components data d ∧ Spells components data d'

/-- Sources that have the same definitions, except that a definition may be spelled in different
ways wherever it is stored. -/
structure SpelledApart (components data : Tree) (sources sources' : Sources) : Prop where
  answer : ∀ id, Respelled components data (sources.definitions.answer id)
    (sources'.definitions.answer id)
  documents : List.Forall₂ (Respelled components data) sources.definitions.documents
    sources'.definitions.documents
  library : sources'.library = sources.library

variable {components data d d' : Tree} {sources sources' : Sources}

/-- Spellings of a definition say the same to a resolution. -/
theorem Respelled.alike (hcomponents : components.Embeddable) (hdata : data.Embeddable)
    (h : Respelled components data d d') : Tree.Alike d d' := by
  rcases h with rfl | ⟨h, h'⟩
  · exact .refl _
  · exact h.alike hcomponents hdata h'

/-- Sources that differ in spellings are alike. -/
theorem SpelledApart.alike (hcomponents : components.Embeddable) (hdata : data.Embeddable)
    (h : SpelledApart components data sources sources') : sources.Alike sources' where
  definitions := ⟨fun id => (h.answer id).alike hcomponents hdata,
    h.documents.imp fun _ _ hd => hd.alike hcomponents hdata⟩
  library := h.library

/-- Stores in memory that hold a definition in two spellings, and otherwise the same. -/
theorem MemoryStore.spelledApart (store : MemoryStore) (id : ComponentId)
    (library : SubgraphLibrary) (h : Respelled components data d d') :
    SpelledApart components data ⟨(store.insert id d).source, library⟩
      ⟨(store.insert id d').source, library⟩ where
  answer := by
    intro key
    show Respelled components data ((store.insert id d).definition key)
      ((store.insert id d').definition key)
    simp only [MemoryStore.definition, MemoryStore.insert, Table.get?_set]
    split
    · exact h
    · exact .inl rfl
  documents := by
    show List.Forall₂ _ ((Table.setIn id d store.definitions.entries).map Prod.snd)
      ((Table.setIn id d' store.definitions.entries).map Prod.snd)
    induction store.definitions.entries with
    | nil => exact .cons h .nil
    | cons e rest ih =>
      rw [Table.setIn, Table.setIn]
      split
      -- the entry of the identity, behind which nothing changes
      · exact .cons h (List.forall₂_same.mpr fun _ _ => .inl rfl)
      · exact .cons (.inl rfl) ih
  library := rfl

/-! ## Resolutions -/

/-- **A definition is resolved in the same way in every spelling.** Its fragment is the same, so a
resolution that starts with it gives the same. Where it is stored, in one place or in several ones,
every call gives the same result and the same graph in every spelling, whatever calls have been made
before. -/
theorem Spells.resolved_alike (hcomponents : components.Embeddable) (hdata : data.Embeddable)
    (h : Spells components data d) (h' : Spells components data d') :
    Fragment.ofDocument d' = Fragment.ofDocument d ∧
      (∀ (s : Session) (sources : Sources) path g pre,
        s.resolveWithin sources path g d' pre = s.resolveWithin sources path g d pre) ∧
      (∀ (store : MemoryStore) id library, SpelledApart components data
        ⟨(store.insert id d).source, library⟩ ⟨(store.insert id d').source, library⟩) ∧
      ∀ sources sources', SpelledApart components data sources sources' →
        ∀ (calls : List Call) (g : Graph) (start start' : Tree) (pre : String),
          Respelled components data start start' →
          let r := (Session.fresh.after sources calls).resolve sources g start pre
          let r' := (Session.fresh.after sources' calls).resolve sources' g start' pre
          r'.result = r.result ∧ r'.graph = r.graph := by
  have hfragment := (h.alike hcomponents hdata h').fragment
  refine ⟨hfragment, fun s sources path g pre => ?_,
    fun store id library => store.spelledApart id library (.inr ⟨h, h'⟩),
    fun sources sources' happart calls g start start' pre hstart => ?_⟩
  · rw [resolveWithin_eq_resolution, resolveWithin_eq_resolution, hfragment]
  -- both sessions begin without a cache, and every call keeps their caches alike
  · have hsources := happart.alike hcomponents hdata
    have hfresh : Session.fresh.Alike Session.fresh := ⟨.refl _, rfl⟩
    have hcall := (hfresh.after hsources calls).resolveWithin hsources [] g
      (hstart.alike hcomponents hdata).fragment pre
    exact ⟨hcall.result, hcall.graph⟩

/-! ## A leg with numbers -/

/-- The entries of components whose nodes have numbers for names, one of them unsigned. -/
def numberedFields : OrderedMap Tree :=
  ⟨[("nodes", .seq [
    .map ⟨[("name", .scalar (.int 7)), ("model", .map ⟨[("domain", .text "mechanics"),
      ("name", .text "motor_universal")]⟩)]⟩,
    .map ⟨[("name", .scalar (.wide 8)), ("model", .map ⟨[("domain", .text "MECHANICS"),
      ("name", .bool true),
      ("version", .float (.finite false 5629499534213120 (-51)))]⟩)]⟩])]⟩

/-- Mechanics data that names its control subgraph with a number. -/
def numberedData : Tree := .map ⟨[("bagel_control", .scalar (.int 12))]⟩

/-- The leg as a definition with a version that holds everything as text. -/
def textSpelling : Tree :=
  .map ⟨[("name", .text "leg"), ("versions", .seq [.map ⟨[
    ("components", (Tree.map numberedFields).embed),
    ("mechanicsData", .map ⟨[("data", numberedData.embed)]⟩)]⟩])]⟩

/-- The leg as a document without versions that holds everything as it is. -/
def bareSpelling : Tree :=
  .map (numberedFields.insert "mechanicsData" (.map ⟨[("data", numberedData)]⟩))

/-- Both spellings of the leg are resolved in the same way. Its numbers are settled in the one that
is read from text, which its fragment does not show. -/
theorem numberedLeg_resolved_alike :
    (Tree.map numberedFields).Embeddable ∧ numberedData.Embeddable ∧
      Spells (.map numberedFields) numberedData textSpelling ∧
      Spells (.map numberedFields) numberedData bareSpelling ∧
      Fragment.ofDocument textSpelling =
        ⟨[⟨"7", "mechanics", "motor_universal", ""⟩, ⟨"8", "MECHANICS", "true", "2.5"⟩],
          some "12"⟩ ∧
      ∀ (s : Session) sources path g pre,
        s.resolveWithin sources path g textSpelling pre =
          s.resolveWithin sources path g bareSpelling pre := by
  have hversion : (Binary64.finite false 5629499534213120 (-51)).Canonical :=
    ⟨by decide, by decide, by decide, .inl (by decide)⟩
  have hcomponents : (Tree.map numberedFields).Embeddable :=
    ⟨rfl, by simp [numberedFields, Tree.text, Tree.bool, Tree.float, Scalar.Sound, hversion],
      by decide +kernel⟩
  have hdata : numberedData.Embeddable :=
    ⟨rfl, by simp [numberedData, Scalar.Sound], by decide +kernel⟩
  have htext : Spells (.map numberedFields) numberedData textSpelling :=
    .versioned rfl rfl .text rfl rfl .text
  have hbare : Spells (.map numberedFields) numberedData bareSpelling :=
    .bare rfl (by decide) (by decide) rfl rfl .direct
  obtain ⟨hfragment, hstart, -, -⟩ := Spells.resolved_alike hcomponents hdata hbare htext
  have hvalue : Fragment.ofDocument bareSpelling =
      ⟨[⟨"7", "mechanics", "motor_universal", ""⟩, ⟨"8", "MECHANICS", "true", "2.5"⟩],
        some "12"⟩ := by decide +kernel
  exact ⟨hcomponents, hdata, htext, hbare, hfragment.trans hvalue, hstart⟩

end ModelGraph
