import ModelGraph.Proofs.Binary64.Canonical
import ModelGraph.Proofs.Document.Answers
import ModelGraph.Proofs.Yaml.RoundTrip
import ModelGraph.Yaml.Embedded

/-!
# What YAML texts hold

Whatever a text looks like, the tree that is read from it has leaves in their only form and
distinct keys, and is no higher than trees may be. So it can be written, and is read back then.

- `scalar?_canonical`: leaves that are read are in their only form.
- `readTree_fits`, `Tree.ofDocumentText?_fits`: trees that are read, and documents that are held
  as text.
-/

namespace ModelGraph

/-- A number that is not negative is put in a signed leaf if it fits in one. -/
theorem Scalar.ofUnsigned_canonical (n : UInt64) : (Scalar.ofUnsigned n).Canonical := by
  unfold ofUnsigned
  split
  · trivial
  · rename_i hwide
    exact Nat.not_lt.mp hwide

namespace Yaml

/-! ## Leaves -/

/-- So is any integer that is read. -/
theorem Plain.integerLeaf?_canonical {i : Int} {v : Scalar} (h : Plain.integerLeaf? i = some v) :
    v.Canonical := by
  unfold Plain.integerLeaf? at h
  split at h
  · split at h
    · cases h
      exact Scalar.ofUnsigned_canonical _
    · cases h
  · split at h
    · cases h
      trivial
    · cases h

/-- A floating point number that is read is in its only form: it is one of the special values, or it
comes from rounding. -/
theorem Plain.float?_canonical {s : List Char} {x : Binary64} (h : Plain.float? s = some x) :
    x.Canonical := by
  obtain ⟨positive, -, h⟩ := Option.bind_eq_some_iff.mp h
  split at h
  · cases h
    trivial
  · split at h
    · cases h
      trivial
    · split at h
      · cases h
        trivial
      · -- the value of a literal has been rounded
        obtain ⟨hvalue, -⟩ := Option.filter_eq_some_iff.mp h
        obtain ⟨l, -, rfl⟩ := Option.map_eq_some_iff.mp hvalue
        exact l.value_canonical

/-- The same for what is neither null, nor a truth value, nor an integer. -/
theorem Plain.Value.ofOther_canonical {s : List Char} {v : Scalar}
    (h : Plain.Value.ofOther s = .leaf v) : v.Canonical := by
  unfold Plain.Value.ofOther at h
  split at h
  · cases h
    trivial
  · split at h
    · rename_i x hx
      cases h
      exact Plain.float?_canonical hx
    · cases h
      trivial

/-- The same for every plain scalar. -/
theorem Plain.Value.ofText_canonical {s : List Char} {v : Scalar}
    (h : Plain.Value.ofText s = .leaf v) : v.Canonical := by
  unfold Plain.Value.ofText at h
  -- the values are tried in their order: null, truth values, integers, and all others
  split at h
  · cases h
  · split at h
    · cases h
      trivial
    · split at h
      · split at h
        · rename_i value hvalue
          cases h
          exact Plain.integerLeaf?_canonical hvalue
        · split at h
          · cases h
          · exact Plain.Value.ofOther_canonical h
      · exact Plain.Value.ofOther_canonical h

namespace Leaf

/-- The same for a leaf without a tag. In quotes it is a text. -/
theorem untagged?_canonical {l : Leaf} {v : Scalar} (h : l.untagged? = some v) : v.Canonical := by
  unfold untagged? at h
  split at h
  · split at h
    · cases h
      trivial
    · rename_i value hvalue
      cases h
      exact Plain.Value.ofText_canonical hvalue
    · cases h
  · cases h
    trivial

/-- **A leaf that is read is in its only form**, whatever its tag and its style. A number that fits
a signed integer is one, and is never an unsigned one. -/
theorem scalar?_canonical {l : Leaf} {v : Scalar} (h : l.scalar? = some v) : v.Canonical := by
  unfold scalar? at h
  dsimp only at h
  -- one case for each tag, each with a reader of its own
  split at h
  · exact untagged?_canonical h
  · exact untagged?_canonical h
  · obtain ⟨b, -, rfl⟩ := Option.map_eq_some_iff.mp h
    trivial
  · obtain ⟨i, -, hi⟩ := Option.bind_eq_some_iff.mp h
    exact Plain.integerLeaf?_canonical hi
  · obtain ⟨x, hx, rfl⟩ := Option.map_eq_some_iff.mp h
    exact Plain.float?_canonical hx
  · split at h
    · cases h
      trivial
    · cases h
  · cases h
  · cases h
    trivial

end Leaf

/-! ## Trees -/

/-- All values of a document have the property that the reader of trees needs of them. -/
theorem values : Document.Values format Scalar.Canonical where
  scalar _ _ h := Leaf.scalar?_canonical h
  blank := trivial

/-- **What is read from a text can be kept in one**: its leaves are in their only form, its keys are
distinct, and it is not too high to be read. -/
theorem readTree_fits {s : String} {t : Tree} (h : readTree s = .ok t) :
    Tree.Fits Scalar.Canonical 128 t :=
  (Document.tree_answers values 128).of_run (c := context s) h

end Yaml

/-- A document that is held as text can be kept in a text, and it is a container. -/
theorem Tree.ofDocumentText?_fits {s : String} {t : Tree} (h : Tree.ofDocumentText? s = some t) :
    t.isScalar = false ∧ Tree.Fits Scalar.Canonical 128 t := by
  unfold Tree.ofDocumentText? at h
  split at h
  · rename_i read hread
    cases hscalar : read.isScalar with
    | true => simp [hscalar] at h
    | false =>
      simp only [hscalar, Bool.false_eq_true, if_false] at h
      cases h
      exact ⟨hscalar, Yaml.readTree_fits hread⟩
  · cases h

end ModelGraph
