import ModelGraph.Tree.Trim

/-!
# Laws of trimming

What trimming leaves of the children of a tree. A child of a trimmed tree is itself trimmed, and it
is not a blank leaf.

- `trimEntries_eq_filterMap`, `trimItems_eq_filterMap`: children are trimmed one by one, in their
  order.
- `exists_trimChild_of_field?_trim`: a child of a trimmed tree is what is left of some child.
- `not_isBlank_of_trimChild`: a leaf that is kept is not blank.
-/

namespace ModelGraph

/-- The characters of the everyday text of a leaf. -/
theorem Scalar.toList_toText (s : Scalar) : s.toText.toList = s.toChars := by
  cases s with
  | text value => rfl
  | int _ | wide _ | float _ | bool _ => exact String.toList_ofList

namespace Tree

/-- The entries of a map are trimmed one by one, and those of which nothing is left are dropped. -/
theorem trimEntries_eq_filterMap (entries : List (String × Tree)) :
    trimEntries entries =
      entries.filterMap fun e => (trimChild e.2).map fun kept => (e.1, kept) := by
  induction entries with
  | nil => rw [trimEntries, List.filterMap_nil]
  | cons e rest ih =>
    obtain ⟨key, value⟩ := e
    rw [trimEntries]
    -- a value that is dropped takes its key along
    cases hvalue : trimChild value with
    | none =>
      rw [List.filterMap_cons_none (by simp [hvalue])]
      exact ih
    | some kept =>
      rw [List.filterMap_cons_some (b := (key, kept)) (by simp [hvalue])]
      exact congrArg ((key, kept) :: ·) ih

/-- The elements of a sequence are trimmed one by one, and those of which nothing is left are
dropped. -/
theorem trimItems_eq_filterMap (items : List Tree) :
    trimItems items = items.filterMap trimChild := by
  induction items with
  | nil => rw [trimItems, List.filterMap_nil]
  | cons item rest ih =>
    rw [trimItems, List.filterMap_cons]
    cases item.trimChild with
    | none => exact ih
    | some kept => exact congrArg (kept :: ·) ih

/-- A child that is kept is kept trimmed. -/
theorem eq_trim_of_trimChild {t kept : Tree} (h : t.trimChild = some kept) : kept = t.trim := by
  -- a child that is kept is trimmed as if it stood alone
  match t with
  | scalar value =>
    rw [trimChild] at h
    split at h
    · cases h
    · cases h
      rw [trim]
  | map ⟨entries⟩ =>
    rw [trimChild] at h
    split at h
    · cases h
    · cases h
      rw [trim]
  | seq items =>
    rw [trimChild] at h
    split at h
    · cases h
    · cases h
      rw [trim]

/-- A leaf that is kept is not blank. -/
theorem not_isBlank_of_trimChild {t : Tree} {s : Scalar} (h : t.trimChild = some (scalar s)) :
    s.isBlank = false := by
  have hleaf : scalar s = t.trim := eq_trim_of_trimChild h
  match t with
  | scalar value =>
    -- trimming does not change a leaf, so `s` is the leaf that was tested
    rw [trim] at hleaf
    cases hleaf
    rw [trimChild] at h
    cases hblank : s.isBlank with
    | false => rfl
    | true =>
      rw [hblank] at h
      cases h
  | map ⟨entries⟩ =>
    rw [trim] at hleaf
    cases hleaf
  | seq items =>
    rw [trim] at hleaf
    cases hleaf

/-- Only a map has a value for a key, and it is one of its entries. -/
theorem mem_of_field? {t value : Tree} {key : String} (h : t.field? key = some value) :
    ∃ entries, t = map ⟨entries⟩ ∧ (key, value) ∈ entries := by
  match t with
  | map ⟨entries⟩ =>
    obtain ⟨before, after, rfl, -⟩ := List.lookup_eq_some_iff.mp h
    exact ⟨_, rfl, by simp⟩
  | seq items => cases h
  | scalar value => cases h

/-- What is found in a trimmed tree is what was left of a child. -/
theorem exists_trimChild_of_field?_trim {t kept : Tree} {key : String}
    (h : t.trim.field? key = some kept) : ∃ child : Tree, child.trimChild = some kept := by
  obtain ⟨trimmed, htrim, hmem⟩ := mem_of_field? h
  match t with
  | map ⟨entries⟩ =>
    rw [trim] at htrim
    cases htrim
    rw [trimEntries_eq_filterMap, List.mem_filterMap] at hmem
    obtain ⟨e, -, he⟩ := hmem
    obtain ⟨kept', hkept, heq⟩ := Option.map_eq_some_iff.mp he
    cases heq
    exact ⟨e.2, hkept⟩
  -- only a map has fields
  | seq items =>
    rw [trim] at htrim
    cases htrim
  | scalar value =>
    rw [trim] at htrim
    cases htrim

end Tree
end ModelGraph
