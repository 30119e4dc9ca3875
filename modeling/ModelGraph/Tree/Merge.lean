import ModelGraph.Tree.Basic

/-!
# Merging

Two maps are merged key by key, with the values of the second winning: keys of the first keep
their places, new keys follow in the order of the second, and maps below a common key are merged in
turn. Anything but two maps gives the second tree.

- `Tree.merge`: the first tree with the second merged into it.
- `merge_eq_right`, `mergeField_none`, `mergeField_some`: the cases of merging two values.
- `mergeEntries_eq_foldl`: entries are merged by setting their keys one after the other.
-/

namespace ModelGraph
namespace Tree

mutual
/-- The first tree with the second merged into it. -/
def merge (target : Tree) : Tree → Tree
  | map ⟨entries⟩ =>
    -- a leaf or a sequence has no entries to keep
    match target with
    | map fields => map (mergeEntries fields entries)
    | _ => map ⟨entries⟩
  | other => other
/-- Entries merged one after the other. -/
def mergeEntries (target : OrderedMap Tree) : List (String × Tree) → OrderedMap Tree
  | [] => target
  | (key, value) :: rest =>
      mergeEntries (target.insert key (mergeField (target.get? key) value)) rest
/-- The value of a key after merging: maps are merged, anything else is replaced. -/
def mergeField : Option Tree → Tree → Tree
  | some (map fields), map ⟨entries⟩ => map (mergeEntries fields entries)
  | _, value => value
end

/-! ## Equations

The three functions call each other. Each is told here by one equation without the matches of its
definition, so the laws of merging need not go back to these. -/

/-- A value that meets none is taken over as it is. -/
theorem mergeField_none (value : Tree) : mergeField none value = value := by
  match value with
  | map ⟨entries⟩ => rw [mergeField]; simp
  | seq items => rw [mergeField]; simp
  | scalar v => rw [mergeField]; simp

/-- A value that meets another one is merged into it. -/
theorem mergeField_some (target value : Tree) :
    mergeField (some target) value = merge target value := by
  cases target <;> cases value <;> simp [mergeField, merge]

/-- Where not both trees are maps, the second one is taken over as it is. -/
theorem merge_eq_right {t s : Tree} (h : t.map? = none ∨ s.map? = none) : merge t s = s := by
  match t, s with
  | _, scalar v => simp [merge]
  | _, seq items => simp [merge]
  | scalar v, map m => simp [merge]
  | seq items, map m => simp [merge]
  | map m, map n => simp [map?] at h

/-- Entries are merged by setting one key after the other, each to its value merged into the one
that the target has for the key at this moment. -/
theorem mergeEntries_eq_foldl (entries : List (String × Tree)) (target : OrderedMap Tree) :
    mergeEntries target entries =
      entries.foldl (fun m e => m.insert e.1 (mergeField (m.get? e.1) e.2)) target := by
  induction entries generalizing target with
  | nil => rw [mergeEntries]; rfl
  | cons e rest ih =>
    obtain ⟨key, value⟩ := e
    rw [mergeEntries, ih]
    rfl

end Tree
end ModelGraph
