import ModelGraph.Proofs.Tree.Path

/-!
# Edits along steps

An edit of one place of a tree makes nothing on its way: the steps to keys of maps and to
positions of sequences have to lead somewhere, and else nothing is edited. Along keys that lead to
a map, it does what a write along the same path does.

- `step?_replaceChild_self`, `step?_replaceChild_of_ne`: one step down after a child was replaced.
- `editAt_eq_none_iff`, `along?_of_editAt`: an edit finds its place, or it is refused.
- `along?_of_editAt_of_apart`: nothing changes beside the steps of an edit.
- `along?_keys`, `editAt_keys`, `editAt_set`: steps to keys alone are a path.
-/

namespace ModelGraph.Tree

variable {α : Type} {t t' inner : Tree} {s s' : Step} {steps q : List Step} {f : Tree → α × Tree}
  {answer : α}

/-! ## One step -/

/-- What has been put in the place of a child is the child from then on. -/
theorem step?_replaceChild_self (h : t.step? s = some inner) (new : Tree) :
    (t.replaceChild new s).step? s = some new := by
  cases s with
  | key name =>
    cases t with
    | map m =>
      have hget : m.get? name = some inner := h
      show (m.modify name fun _ => new).get? name = some new
      rw [OrderedMap.get?_modify, if_pos rfl, hget]
      rfl
    | seq items => cases h
    | scalar v => cases h
  | position index =>
    cases t with
    | map m => cases h
    | seq items =>
      -- the position exists, so it is not behind the end
      obtain ⟨hlt, -⟩ := List.getElem?_eq_some_iff.mp (show items[index]? = some inner from h)
      exact List.getElem?_set_self hlt
    | scalar v => cases h

/-- All other children stay where they are. -/
theorem step?_replaceChild_of_ne (hne : s' ≠ s) (t new : Tree) :
    (t.replaceChild new s).step? s' = t.step? s' := by
  cases s with
  | key name =>
    cases t with
    | map m =>
      cases s' with
      | key name' =>
        have hname : name' ≠ name := fun heq => hne (heq ▸ rfl)
        exact (OrderedMap.get?_modify ..).trans (if_neg hname)
      | position index => rfl
    | seq items => rfl
    | scalar v => rfl
  | position index =>
    cases t with
    | map m => rfl
    | seq items =>
      cases s' with
      | key name => rfl
      | position index' =>
        have hindex : index ≠ index' := fun heq => hne (heq ▸ rfl)
        exact List.getElem?_set_ne hindex
    | scalar v => rfl

/-- Where a key has a value, replacing this value and setting the key are the same. -/
theorem replaceChild_key (name : String) (h : t.field? name = some inner) (new : Tree) :
    t.replaceChild new (.key name) = t.set name new := by
  cases t with
  | map m =>
    have hmem : name ∈ m.keys := (OrderedMap.mem_keys_iff m name).mpr ⟨inner, h⟩
    exact congrArg map (OrderedMap.insert_of_mem hmem new).symm
  | seq items => cases h
  | scalar v => cases h

/-! ## Edits -/

/-- An edit is refused exactly if there is nothing at the end of its steps. -/
theorem editAt_eq_none_iff : t.editAt f steps = none ↔ t.along? steps = none := by
  induction steps generalizing t with
  | nil => simp [editAt, along?]
  | cons s steps ih =>
    rw [editAt, along?]
    cases t.step? s with
    | none => simp
    | some inner => simpa using ih

/-- An edit answers what the change of its place answers, and what has been made of this place is
found at the end of the steps and from there on. -/
theorem along?_of_editAt (h : t.editAt f steps = some (answer, t')) :
    ∃ inner, t.along? steps = some inner ∧ answer = (f inner).1 ∧
      ∀ rest, t'.along? (steps ++ rest) = (f inner).2.along? rest := by
  induction steps generalizing t t' with
  | nil =>
    have hedit : f t = (answer, t') := Option.some.inj h
    exact ⟨t, rfl, by rw [hedit], fun rest => by rw [hedit, List.nil_append]⟩
  | cons s steps ih =>
    -- the first step exists, and its child was edited along the others
    obtain ⟨child, hchild, h⟩ := Option.bind_eq_some_iff.mp h
    obtain ⟨⟨answer', child'⟩, hedit, heq⟩ := Option.map_eq_some_iff.mp h
    cases heq
    obtain ⟨inner, hinner, hanswer, hrest⟩ := ih hedit
    refine ⟨inner, by rw [along?, hchild, Option.bind_some, hinner], hanswer, fun rest => ?_⟩
    rw [List.cons_append, along?, step?_replaceChild_self hchild, Option.bind_some, hrest]

/-- Steps that branch off those of an edit lead where they led before. -/
theorem along?_of_editAt_of_apart (h : t.editAt f steps = some (answer, t')) (hq : ¬ q <+: steps)
    (hsteps : ¬ steps <+: q) : t'.along? q = t.along? q := by
  induction steps generalizing t t' q with
  | nil => exact absurd List.nil_prefix hsteps
  | cons s steps ih =>
    obtain ⟨child, hchild, h⟩ := Option.bind_eq_some_iff.mp h
    obtain ⟨⟨answer', child'⟩, hedit, heq⟩ := Option.map_eq_some_iff.mp h
    cases heq
    cases q with
    | nil => exact absurd List.nil_prefix hq
    | cons s' q =>
      rw [along?, along?]
      by_cases hs : s' = s
      · -- both have gone the same way so far, and branch further down
        subst hs
        rw [List.cons_prefix_cons] at hq hsteps
        rw [step?_replaceChild_self hchild, hchild, Option.bind_some, Option.bind_some]
        exact ih hedit (fun hprefix => hq ⟨rfl, hprefix⟩) fun hprefix => hsteps ⟨rfl, hprefix⟩
      · rw [step?_replaceChild_of_ne hs]

/-! ## Paths of keys -/

/-- Steps to keys lead where the path of these keys leads. -/
theorem along?_keys (t : Tree) (path : List String) : t.along? (path.map .key) = t.at? path := by
  induction path generalizing t with
  | nil => rfl
  | cons key path ih =>
    rw [List.map_cons, along?, at?]
    exact congrArg (t.field? key).bind (funext ih)

/-- A path that ends at a map can be edited in either way, along steps or with maps made where there
are none: nothing has to be made. -/
theorem editAt_keys {path : List String} (h : t.at? path = some inner) (hmap : inner.toMap = inner)
    (f : Tree → α × Tree) :
    t.editAt f (path.map .key) = some ((f inner).1, t.updateAt (fun s => (f s).2) path) := by
  induction path generalizing t with
  | nil =>
    obtain rfl := Option.some.inj h
    rfl
  | cons key path ih =>
    obtain ⟨child, hchild, h⟩ := Option.bind_eq_some_iff.mp h
    -- the child is a map, because keys lead on from it or because the path ends there
    have hself : child.toMap = child := by
      cases path with
      | nil => rwa [Option.some.inj h]
      | cons key' path =>
        cases child with
        | map m => rfl
        | seq items => cases h
        | scalar v => cases h
    have hstep : t.step? (.key key) = some child := hchild
    rw [List.map_cons, editAt, hstep, Option.bind_some, ih h, Option.map_some, updateAt,
      updateChild, child_of_field? hchild, hself]
    exact congrArg (fun changed => some ((f inner).1, changed)) (replaceChild_key key hchild _)

/-- **Setting a key at the end of steps to a map is writing the path of these steps.** -/
theorem editAt_set {path : List String} {m : OrderedMap Tree} (h : t.at? path = some (map m))
    (key : String) (value : Tree) :
    t.editAt (fun inner => ((), inner.set key value)) (path.map .key) =
      some ((), t.setAt path key value) :=
  editAt_keys h rfl _

end ModelGraph.Tree
