import ModelGraph.Proofs.Tree.Leaves
import ModelGraph.Proofs.Yaml.Readings

/-!
# Trees that have been through a text

A text does not say whether a number that a signed leaf can hold came from a signed leaf. So a tree
comes out of a text with all such numbers in signed leaves, and with nothing else changed.

- `Scalar.settled`, `Tree.settled`: what comes out of a text.
- `readTree_render_settled`: reading what has been written.
- `Tree.ofDocumentText?_render`: reading it where only a document counts.
- `Tree.Embeddable`: documents that can be held as text, and are read back from it.
-/

namespace ModelGraph

/-! ## Leaves -/

namespace Scalar

/-- A leaf that a value can be computed for: its floating point number is in its only form. Unlike
with `Canonical`, an unsigned number may be small. -/
def Sound : Scalar → Prop
  | float x => x.Canonical
  | _ => True

/-- The leaf that is read where another one has been written. -/
def settled : Scalar → Scalar
  | wide n => ofUnsigned n
  | v => v

/-- What is in its only form can be computed. -/
theorem Canonical.sound {v : Scalar} (h : v.Canonical) : v.Sound := by
  cases v with
  | float x => exact h
  | _ => trivial

/-- What is read is in its only form. -/
theorem Sound.settled {v : Scalar} (h : v.Sound) : v.settled.Canonical := by
  cases v with
  | wide n => exact ofUnsigned_canonical n
  | float x => exact h
  | _ => trivial

/-- A leaf in its only form is read as it is. -/
theorem settled_of_canonical {v : Scalar} (h : v.Canonical) : v.settled = v := by
  cases v with
  | wide n => exact if_neg (Nat.not_lt.mpr h)
  | _ => rfl

/-- Only an unsigned number is settled in another leaf, and it is written alike there. -/
theorem settled_eq_or (v : Scalar) :
    v.settled = v ∨ ∃ n i, v = wide n ∧ v.settled = int i ∧ (int i).toChars = v.toChars := by
  cases v with
  | wide n =>
    show ofUnsigned n = wide n ∨ _
    by_cases hsmall : n.toNat < Nat.pow 2 63
    · have hint : (Int64.ofNat n.toNat).toInt = n.toNat := Int64.toInt_ofNat_of_lt hsmall
      refine .inr ⟨n, Int64.ofNat n.toNat, rfl, if_pos hsmall, ?_⟩
      rw [toChars, toChars, hint, Text.decimalInt, if_neg (by omega), Int.natAbs_natCast]
    · exact .inl (if_neg hsmall)
  | _ => exact .inl rfl

/-- Settling a leaf does not change its text. -/
theorem toText_settled (v : Scalar) : v.settled.toText = v.toText := by
  obtain heq | ⟨n, i, rfl, heq, hchars⟩ := settled_eq_or v
  · rw [heq]
  · rw [heq]
    exact congrArg String.ofList hchars

end Scalar

/-- Nor does it change how the leaf is written. -/
theorem Yaml.writtenLeaf_settled (v : Scalar) : writtenLeaf v.settled = writtenLeaf v := by
  obtain heq | ⟨n, i, rfl, heq, hchars⟩ := v.settled_eq_or
  · rw [heq]
  · rw [heq]
    exact congrArg (fun chars => (⟨.none, .plain, String.ofList chars⟩ : Leaf)) hchars

/-! ## Trees -/

namespace Tree

/-- The tree that is read where another one has been written. -/
def settled (t : Tree) : Tree := t.mapLeaves Scalar.settled

/-- A tree with leaves in their only form comes out of a text as it is. -/
theorem settled_eq_self {t : Tree} (h : t.LeavesAll Scalar.Canonical) : t.settled = t :=
  mapLeaves_eq_self (h.imp fun _ => Scalar.settled_of_canonical)

/-- A settled tree is no higher, and it has the same keys. -/
theorem Fits.settled {levels : Nat} {t : Tree} (h : t.Fits Scalar.Sound levels) :
    t.settled.Fits Scalar.Canonical levels :=
  h.mapLeaves fun _ => Scalar.Sound.settled

/-- A settled tree is written as the tree itself. -/
theorem treeEvents_settled (t : Tree) :
    Document.treeEvents Yaml.writtenLeaf t.settled = Document.treeEvents Yaml.writtenLeaf t := by
  unfold settled
  induction t using Tree.induct with
  -- an integer is written the same whether it is signed or not
  | scalar v => simp [Yaml.writtenLeaf_settled]
  | seq items ih =>
    rw [mapLeaves_seq, Document.treeEvents_seq, Document.treeEvents_seq, List.flatMap_map,
      List.flatMap_congr ih]
  | map entries ih =>
    rw [mapLeaves_map, OrderedMap.mapValues, Document.treeEvents_map, Document.treeEvents_map,
      List.flatMap_map]
    have hentries := List.flatMap_congr fun e he =>
      congrArg ([.leaf (Yaml.writtenLeaf (.text e.1))] ++ ·) (ih e he)
    exact congrArg (fun events => Document.Event.openMap false :: (events ++ [.closeMap])) hentries

end Tree

/-- **What has been written is read back**, with small unsigned numbers in signed leaves. -/
theorem Yaml.readTree_render_settled {t : Tree} (h : t.Fits Scalar.Sound 128) :
    Yaml.readTree (Yaml.render t) = .ok t.settled := by
  have hfits := h.settled.imp fun _ => Yaml.readable_of_canonical
  have hread := Yaml.readTree_of_storable hfits.storable hfits.height
  rw [Yaml.readTree_render_eq] at hread ⊢
  rwa [Tree.treeEvents_settled] at hread

namespace Tree

/-- A container that can be held as text. -/
structure Embeddable (t : Tree) : Prop where
  container : t.isScalar = false
  fits : t.Fits Scalar.Sound 128

/-- What is written as text is read back as a document unless it is a leaf. -/
theorem ofDocumentText?_render {t : Tree} (h : t.Fits Scalar.Sound 128) :
    ofDocumentText? (Yaml.render t) = if t.isScalar then none else some t.settled := by
  rw [ofDocumentText?_of_readTree (Yaml.readTree_render_settled h), settled, isScalar_mapLeaves]

/-- A document that is held as text is read back. -/
theorem Embeddable.document?_embed {t : Tree} (h : t.Embeddable) :
    t.embed.document? = some t.settled :=
  document?_embed_of_readTree (Yaml.readTree_render_settled h.fits)
    ((isScalar_mapLeaves _).trans h.container)

end Tree
end ModelGraph
