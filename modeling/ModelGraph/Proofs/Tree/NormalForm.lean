import Mathlib.Data.List.Basic
import ModelGraph.Proofs.OrderedMap
import ModelGraph.Proofs.Tree.Shape
import ModelGraph.Proofs.Tree.Trim

/-!
# Trimmed trees

A trimmed tree has neither blank leaves nor empty containers below its root, and it has all leaves
of the tree that are not blank, in their order and in the same containers.

- `Below`, `isVoid`: what stands below the root, and what trimming leaves nothing of.
- `leaves`, `filledLeaves`: the leaves of a tree with the way to each of them.
- `tidy_trim`: nothing below the root of a trimmed tree is void.
- `Tidy.trim_eq`: a tree with nothing void below its root is trimmed.
- `filledLeaves_trim`: no leaf is lost that is not blank.
- `trim_normalForm`: the laws of trimming together.
-/

namespace ModelGraph.Tree

/-! ## What stands below the root -/

/-- The values of a map or the elements of a sequence. -/
def children : Tree → List Tree
  | map fields => fields.values
  | seq items => items
  | scalar _ => []

/-- A tree stands below the root of another one, at any depth. The root itself is left out, since
trimming never takes it away. -/
inductive Below : Tree → Tree → Prop where
  | child {d t : Tree} (hd : d ∈ t.children) : Below d t
  | inner {d c t : Tree} (hc : c ∈ t.children) (hd : Below d c) : Below d t

/-- A blank leaf or an empty container. -/
def isVoid : Tree → Bool
  | scalar value => value.isBlank
  | t => t.isEmpty

/-- Nothing below the root is void. The root may be: an empty map is trimmed, and so is a blank leaf
that stands alone. -/
def Tidy (t : Tree) : Prop := ∀ d, Below d t → d.isVoid = false

/-- A child of a tidy tree is neither void nor untidy. -/
theorem Tidy.child {t c : Tree} (h : t.Tidy) (hc : c ∈ t.children) : c.isVoid = false ∧ c.Tidy :=
  ⟨h c (.child hc), fun d hd => h d (.inner hc hd)⟩

/-- A tree is tidy if no child is void and all of them are tidy. -/
theorem tidy_of_children {t : Tree} (h : ∀ c ∈ t.children, c.isVoid = false ∧ c.Tidy) : t.Tidy := by
  intro d hd
  cases hd with
  | child hc => exact (h d hc).1
  | inner hc hd => exact (h _ hc).2 d hd

/-- What it is for a map to be tidy, said of the values that are found in it. -/
theorem tidy_map_iff {m : OrderedMap Tree} (h : m.Distinct) :
    (map m).Tidy ↔ ∀ key value, m.get? key = some value → value.isVoid = false ∧ value.Tidy := by
  constructor
  · intro htidy key value hget
    apply htidy.child
    exact List.mem_map_of_mem ((h.get?_eq_some_iff key value).mp hget)
  · intro hvalues
    apply tidy_of_children
    intro c hc
    obtain ⟨e, he, rfl⟩ := List.mem_map.mp hc
    exact hvalues e.1 e.2 ((h.get?_eq_some_iff e.1 e.2).mpr he)

/-- The entries of a tidy tree are tidy; there are none unless it is a map. -/
theorem Tidy.fields {t : Tree} (h : t.Tidy) : (map t.fields).Tidy := by
  cases t with
  | map m => exact h
  | seq items => exact tidy_of_children nofun
  | scalar v => exact tidy_of_children nofun

/-- A child is kept unless nothing is left of it. -/
theorem trimChild_eq (t : Tree) : t.trimChild = if t.trim.isVoid then none else some t.trim := by
  match t with
  | scalar value => rw [trimChild, trim, isVoid]
  | map ⟨entries⟩ =>
    rw [trimChild, trim]
    cases trimEntries entries <;> rfl
  | seq items =>
    rw [trimChild, trim]
    cases trimItems items <;> rfl

/-- A child is kept as its trimmed form, unless this is void. -/
theorem trimChild_eq_some_iff {t kept : Tree} :
    t.trimChild = some kept ↔ t.trim.isVoid = false ∧ kept = t.trim := by
  rw [trimChild_eq]
  cases t.trim.isVoid <;> simp [eq_comm]

/-- The children of a trimmed tree are the trimmed children of the tree, as far as something is
left of them. -/
theorem children_trim (t : Tree) : t.trim.children = t.children.filterMap trimChild := by
  cases t with
  | scalar value => rw [trim]; rfl
  | seq items => rw [trim, trimItems_eq_filterMap]; rfl
  | map fields =>
    obtain ⟨entries⟩ := fields
    rw [trim, trimEntries_eq_filterMap]
    simp only [children, OrderedMap.values, List.map_filterMap, List.filterMap_map, Option.map_map]
    exact List.filterMap_congr fun e _ => by simp [Function.comp_def]

/-- What holds of a tree as soon as it holds of all its children holds of every tree. Sequences and
maps need not be told apart in this induction. -/
theorem induct_children {P : Tree → Prop} (h : ∀ t, (∀ c ∈ t.children, P c) → P t) (t : Tree) :
    P t := by
  induction t using Tree.induct with
  | scalar v => exact h _ nofun
  | seq items ih => exact h _ ih
  | map entries ih =>
    refine h _ fun c hc => ?_
    obtain ⟨e, he, rfl⟩ := List.mem_map.mp hc
    exact ih e he

/-- **Nothing below the root of a trimmed tree is void.** -/
theorem tidy_trim (t : Tree) : t.trim.Tidy := by
  induction t using induct_children with
  | h t ih =>
    refine tidy_of_children fun c hc => ?_
    rw [children_trim] at hc
    -- each child that is left is a trimmed child of the tree, and was not void after trimming
    obtain ⟨child, hchild, hkept⟩ := List.mem_filterMap.mp hc
    obtain ⟨hvoid, rfl⟩ := trimChild_eq_some_iff.mp hkept
    exact ⟨hvoid, ih child hchild⟩

/-- **A tree with nothing void below its root is trimmed.** -/
theorem Tidy.trim_eq {t : Tree} (h : t.Tidy) : t.trim = t := by
  induction t using Tree.induct with
  | scalar v => rw [trim]
  | seq items ih =>
    -- every element is kept, and by induction as it is
    have hkept : ∀ c ∈ items, c.trimChild = some c := fun c hc => by
      obtain ⟨hvoid, htidy⟩ := h.child hc
      have heq := ih c hc htidy
      exact trimChild_eq_some_iff.mpr ⟨heq.symm ▸ hvoid, heq.symm⟩
    rw [trim, trimItems_eq_filterMap, List.filterMap_congr hkept, List.filterMap_some]
  | map entries ih =>
    have hkept : ∀ e ∈ entries, (trimChild e.2).map (fun kept => (e.1, kept)) = some e :=
      fun e he => by
        obtain ⟨hvoid, htidy⟩ := h.child (List.mem_map_of_mem he)
        have heq := ih e he htidy
        rw [trimChild_eq_some_iff.mpr ⟨heq.symm ▸ hvoid, heq.symm⟩]
        rfl
    -- every entry is kept under its key, and by induction with its value as it is
    rw [trim, trimEntries_eq_filterMap, List.filterMap_congr hkept, List.filterMap_some]

/-! ## Leaves -/

/-- One step down to a leaf. Which of its elements is entered from a sequence is not told, because
trimming takes elements out and the others move up. -/
inductive Descent where
  | key (name : String)
  | element
  deriving DecidableEq, Repr

/-- A leaf with the steps that lead to it. -/
abbrev Leaf := List Descent × Scalar

/-- A leaf seen from one step further up. -/
def Leaf.under (step : Descent) (l : Leaf) : Leaf := (step :: l.1, l.2)

mutual

/-- The leaves of a tree in their order, each with its way down. -/
def leaves : Tree → List Leaf
  | scalar value => [([], value)]
  | seq items => leavesItems items
  | map ⟨entries⟩ => leavesEntries entries

/-- The leaves of some elements. -/
def leavesItems : List Tree → List Leaf
  | [] => []
  | t :: rest => (leaves t).map (Leaf.under .element) ++ leavesItems rest

/-- The leaves of some entries. -/
def leavesEntries : List (String × Tree) → List Leaf
  | [] => []
  | (key, t) :: rest => (leaves t).map (Leaf.under (.key key)) ++ leavesEntries rest

end

/-- The leaves that are not blank. -/
def filledLeaves (t : Tree) : List Leaf := t.leaves.filter fun l => !l.2.isBlank

/-- Whether a leaf is blank does not depend on the way to it. -/
theorem filter_under (step : Descent) (ls : List Leaf) :
    (ls.map (Leaf.under step)).filter (fun l => !l.2.isBlank) =
      (ls.filter fun l => !l.2.isBlank).map (Leaf.under step) := by
  rw [List.filter_map]
  rfl

/-- A leaf is its own only leaf, unless it is blank. -/
theorem filledLeaves_scalar (v : Scalar) :
    (scalar v).filledLeaves = if v.isBlank then [] else [([], v)] := by
  rw [filledLeaves, leaves]
  cases h : v.isBlank <;> simp [h]

/-- The filled leaves of a sequence are those of its elements, one after the other. -/
theorem filledLeaves_seq (items : List Tree) :
    (seq items).filledLeaves = items.flatMap fun t => t.filledLeaves.map (Leaf.under .element) := by
  rw [filledLeaves, leaves]
  induction items with
  | nil => rw [leavesItems]; rfl
  | cons t rest ih => rw [leavesItems, List.filter_append, ih, filter_under]; rfl

/-- The filled leaves of a map are those of its values, each behind its key. -/
theorem filledLeaves_map (entries : List (String × Tree)) :
    (map ⟨entries⟩).filledLeaves =
      entries.flatMap fun e => e.2.filledLeaves.map (Leaf.under (.key e.1)) := by
  rw [filledLeaves, leaves]
  induction entries with
  | nil => rw [leavesEntries]; rfl
  | cons e rest ih => rw [leavesEntries, List.filter_append, ih, filter_under]; rfl

/-- What is void has no filled leaf. -/
theorem filledLeaves_of_isVoid {t : Tree} (h : t.isVoid = true) : t.filledLeaves = [] := by
  match t with
  | scalar v =>
    have hblank : v.isBlank = true := h
    rw [filledLeaves_scalar, if_pos hblank]
  -- an empty container has no leaves at all
  | seq items =>
    have hnil : items = [] := List.isEmpty_iff.mp h
    rw [hnil, filledLeaves_seq]
    rfl
  | map ⟨entries⟩ =>
    have hnil : entries = [] := List.isEmpty_iff.mp h
    rw [hnil, filledLeaves_map]
    rfl

/-- What is left of a child has its filled leaves, and a child of which nothing is left has none. -/
theorem flatMap_trimChild {t : Tree} (h : t.trim.filledLeaves = t.filledLeaves) (step : Descent) :
    (t.trimChild.toList.flatMap fun kept => kept.filledLeaves.map (Leaf.under step)) =
      t.filledLeaves.map (Leaf.under step) := by
  rw [trimChild_eq, ← h]
  cases hvoid : t.trim.isVoid with
  | true => rw [filledLeaves_of_isVoid hvoid]; rfl
  | false => simp

/-- **Trimming loses no leaf that is not blank**, and no step of the way to one. -/
theorem filledLeaves_trim (t : Tree) : t.trim.filledLeaves = t.filledLeaves := by
  induction t using Tree.induct with
  | scalar v => rw [trim]
  | seq items ih =>
    rw [trim, trimItems_eq_filterMap, filledLeaves_seq, filledLeaves_seq]
    -- one element after the other: what is left of it has its leaves
    induction items with
    | nil => rfl
    | cons t rest ihRest =>
      obtain ⟨ht, hrest⟩ := List.forall_mem_cons.mp ih
      rw [List.flatMap_cons, ← flatMap_trimChild ht, ← ihRest hrest, List.filterMap_cons]
      cases t.trimChild <;> simp
  | map entries ih =>
    rw [trim, trimEntries_eq_filterMap, filledLeaves_map, filledLeaves_map]
    induction entries with
    | nil => rfl
    | cons e rest ihRest =>
      obtain ⟨he, hrest⟩ := List.forall_mem_cons.mp ih
      rw [List.flatMap_cons, ← flatMap_trimChild he, ← ihRest hrest, List.filterMap_cons]
      cases e.2.trimChild <;> simp

/-- A tidy tree that is not void itself has a leaf that is not blank. So an empty tree is all that
trimming can leave of one without such leaves. -/
theorem Tidy.filledLeaves_ne_nil {t : Tree} (h : t.Tidy) (hvoid : t.isVoid = false) :
    t.filledLeaves ≠ [] := by
  induction t using Tree.induct with
  | scalar v =>
    have hblank : v.isBlank = false := hvoid
    simp [filledLeaves_scalar, hblank]
  | seq items ih =>
    cases items with
    | nil => cases hvoid
    | cons t rest =>
      -- the first child of a tidy tree is not void, so it has such a leaf
      obtain ⟨hfirst, htidy⟩ := h.child (c := t) List.mem_cons_self
      have hleaves := ih t List.mem_cons_self htidy hfirst
      simp [filledLeaves_seq, hleaves]
  | map entries ih =>
    cases entries with
    | nil => cases hvoid
    | cons e rest =>
      obtain ⟨hfirst, htidy⟩ := h.child (c := e.2) List.mem_cons_self
      have hleaves := ih e List.mem_cons_self htidy hfirst
      simp [filledLeaves_map, hleaves]

/-! ## Trimming -/

/-- A leaf is blank if nothing is left of its text between the white space at both ends. -/
theorem isBlank_iff (v : Scalar) : v.isBlank = true ↔ Text.trim v.toText.toList = [] := by
  rw [Scalar.toList_toText]
  exact List.isEmpty_iff

/-- Trimming keeps maps and sequences what they are. -/
theorem kind_trim (t : Tree) :
    t.trim.map?.isSome = t.map?.isSome ∧ t.trim.seq?.isSome = t.seq?.isSome := by
  match t with
  | scalar value => rw [trim]; exact ⟨rfl, rfl⟩
  | map ⟨entries⟩ => rw [trim]; exact ⟨rfl, rfl⟩
  | seq items => rw [trim]; exact ⟨rfl, rfl⟩

/-- A leaf is trimmed as it is, blank or not. -/
theorem trim_of_isScalar {t : Tree} (h : t.isScalar = true) : t.trim = t := by
  match t with
  | scalar value => rw [trim]

/-- A container is void if it is empty. -/
theorem isVoid_trim {t : Tree} (h : t.isScalar = false) : t.trim.isVoid = t.trim.isEmpty := by
  match t with
  | map ⟨entries⟩ => rw [trim]; rfl
  | seq items => rw [trim]; rfl

/-- A container is trimmed to an empty one exactly if it has no filled leaf, at whatever depth. -/
theorem isEmpty_trim_iff {t : Tree} (h : t.isScalar = false) :
    t.trim.isEmpty = true ↔ t.filledLeaves = [] := by
  rw [← isVoid_trim h, ← filledLeaves_trim]
  constructor
  · exact filledLeaves_of_isVoid
  · intro hleaves
    -- a trimmed tree is tidy, so it would have a filled leaf if it were not void
    rw [← Bool.not_eq_false]
    exact fun hvoid => t.tidy_trim.filledLeaves_ne_nil hvoid hleaves

/-- What trimming has made of a tree: nothing void stands below its root, its leaves are those of
the tree that are not blank, a container is still one of the same kind and is empty only if the
tree had no such leaf, and a leaf is as it was. -/
structure TrimmedTo (t trimmed : Tree) : Prop where
  below : ∀ d, Below d trimmed → d.isVoid = false
  leaves : trimmed.filledLeaves = t.filledLeaves
  isMap : trimmed.map?.isSome = t.map?.isSome
  isSeq : trimmed.seq?.isSome = t.seq?.isSome
  empty : t.isScalar = false → (trimmed.isEmpty = true ↔ t.filledLeaves = [])
  leaf : t.isScalar = true → trimmed = t

/-- **Trimming removes what is blank and nothing else**, and a second trimming changes nothing.
Blank is what has no character but white space in its everyday text. -/
theorem trim_normalForm (t : Tree) :
    TrimmedTo t t.trim ∧ t.trim.trim = t.trim ∧
      ∀ v : Scalar, v.isBlank = true ↔ Text.trim v.toText.toList = [] :=
  ⟨⟨t.tidy_trim, t.filledLeaves_trim, t.kind_trim.1, t.kind_trim.2, isEmpty_trim_iff,
    trim_of_isScalar⟩, t.tidy_trim.trim_eq, isBlank_iff⟩

end ModelGraph.Tree
