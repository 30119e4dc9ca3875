import ModelGraph.Tree.Basic

/-!
# Shapes of trees

Conditions on a whole tree, said of its leaves, its keys and its nesting, and the induction that
goes with them: what holds of all children holds of the tree.

- `Tree.induct`: induction on a tree.
- `Tree.LeavesAll`, `Tree.DistinctKeys`, `Tree.height`: the conditions.
- `Tree.Storable`: what is asked of a tree that is kept in a text.
-/

namespace ModelGraph.Tree

/-! ## Induction -/

mutual

/-- What holds of a tree as soon as it holds of all its children holds of every tree. Trees are
nested in lists of entries and of elements, so the induction that comes with the type has three
motives; this one has a single motive, which is what all proofs about trees use. -/
theorem induct {P : Tree → Prop} (scalar : ∀ v, P (.scalar v))
    (seq : ∀ items, (∀ t ∈ items, P t) → P (.seq items))
    (map : ∀ entries : List (String × Tree), (∀ e ∈ entries, P e.2) → P (.map ⟨entries⟩)) :
    ∀ t, P t
  | .scalar v => scalar v
  | .seq items => seq items (inductItems scalar seq map items)
  | .map ⟨entries⟩ => map entries (inductEntries scalar seq map entries)

/-- What holds of the elements of a sequence, each by the induction on trees. -/
private theorem inductItems {P : Tree → Prop} (scalar : ∀ v, P (.scalar v))
    (seq : ∀ items, (∀ t ∈ items, P t) → P (.seq items))
    (map : ∀ entries : List (String × Tree), (∀ e ∈ entries, P e.2) → P (.map ⟨entries⟩)) :
    ∀ items : List Tree, ∀ t ∈ items, P t
  | [], _, h => nomatch h
  | x :: xs, t, h => by
    rcases List.mem_cons.mp h with heq | h
    · exact heq ▸ induct scalar seq map x
    · exact inductItems scalar seq map xs t h

/-- What holds of the values of a map, each by the induction on trees. -/
private theorem inductEntries {P : Tree → Prop} (scalar : ∀ v, P (.scalar v))
    (seq : ∀ items, (∀ t ∈ items, P t) → P (.seq items))
    (map : ∀ entries : List (String × Tree), (∀ e ∈ entries, P e.2) → P (.map ⟨entries⟩)) :
    ∀ entries : List (String × Tree), ∀ e ∈ entries, P e.2
  | [], _, h => nomatch h
  | (k, x) :: xs, e, h => by
    rcases List.mem_cons.mp h with heq | h
    · exact heq ▸ induct scalar seq map x
    · exact inductEntries scalar seq map xs e h

end

/-! ## Conditions -/

mutual

/-- Every leaf has a property. This and the next conditions recurse as trees do, so that they can be
taken apart by `simp` with the lemmas below and decided on small trees. -/
def LeavesAll (p : Scalar → Prop) : Tree → Prop
  | scalar v => p v
  | seq items => LeavesAllItems p items
  | map ⟨entries⟩ => LeavesAllEntries p entries

/-- Every leaf of some elements has a property. -/
def LeavesAllItems (p : Scalar → Prop) : List Tree → Prop
  | [] => True
  | t :: rest => LeavesAll p t ∧ LeavesAllItems p rest

/-- Every leaf of some entries has a property. -/
def LeavesAllEntries (p : Scalar → Prop) : List (String × Tree) → Prop
  | [] => True
  | (_, t) :: rest => LeavesAll p t ∧ LeavesAllEntries p rest

end

mutual

/-- No key occurs twice in any map. -/
def DistinctKeys : Tree → Prop
  | scalar _ => True
  | seq items => DistinctKeysItems items
  | map ⟨entries⟩ => (entries.map Prod.fst).Nodup ∧ DistinctKeysEntries entries

/-- No key occurs twice in any map of some elements. -/
def DistinctKeysItems : List Tree → Prop
  | [] => True
  | t :: rest => DistinctKeys t ∧ DistinctKeysItems rest

/-- No key occurs twice in any map of some entries. -/
def DistinctKeysEntries : List (String × Tree) → Prop
  | [] => True
  | (_, t) :: rest => DistinctKeys t ∧ DistinctKeysEntries rest

end

mutual

/-- The number of containers that are nested in each other. A leaf has none, and an empty container
counts as one. -/
def height : Tree → Nat
  | scalar _ => 0
  | seq items => heightItems items + 1
  | map ⟨entries⟩ => heightEntries entries + 1

/-- The greatest height among some elements. -/
def heightItems : List Tree → Nat
  | [] => 0
  | t :: rest => max (height t) (heightItems rest)

/-- The greatest height among some entries. -/
def heightEntries : List (String × Tree) → Nat
  | [] => 0
  | (_, t) :: rest => max (height t) (heightEntries rest)

end

/-- The only leaf of a leaf is the leaf itself. -/
@[simp]
theorem leavesAll_scalar {p : Scalar → Prop} {v : Scalar} : LeavesAll p (scalar v) ↔ p v :=
  Iff.rfl

/-- The leaves of a sequence are those of its elements. -/
@[simp]
theorem leavesAll_seq {p : Scalar → Prop} {items : List Tree} :
    LeavesAll p (seq items) ↔ ∀ t ∈ items, LeavesAll p t := by
  show LeavesAllItems p items ↔ _
  induction items with
  | nil => exact ⟨nofun, fun _ => trivial⟩
  | cons t rest ih =>
    rw [List.forall_mem_cons, ← ih]
    exact Iff.rfl

/-- The leaves of a map are those of its values. -/
@[simp]
theorem leavesAll_map {p : Scalar → Prop} {entries : List (String × Tree)} :
    LeavesAll p (map ⟨entries⟩) ↔ ∀ e ∈ entries, LeavesAll p e.2 := by
  show LeavesAllEntries p entries ↔ _
  induction entries with
  | nil => exact ⟨nofun, fun _ => trivial⟩
  | cons e rest ih =>
    rw [List.forall_mem_cons, ← ih]
    exact Iff.rfl

/-- A property of all leaves may be weakened. -/
theorem LeavesAll.imp {p q : Scalar → Prop} (hpq : ∀ v, p v → q v) {t : Tree} (h : t.LeavesAll p) :
    t.LeavesAll q := by
  induction t using Tree.induct with
  | scalar v => exact leavesAll_scalar.mpr (hpq v (leavesAll_scalar.mp h))
  | seq items ih => exact leavesAll_seq.mpr fun t ht => ih t ht (leavesAll_seq.mp h t ht)
  | map entries ih => exact leavesAll_map.mpr fun e he => ih e he (leavesAll_map.mp h e he)

/-- There are no keys in a leaf. -/
@[simp]
theorem distinctKeys_scalar {v : Scalar} : DistinctKeys (scalar v) ↔ True := Iff.rfl

/-- A sequence has no keys but those of its elements. -/
@[simp]
theorem distinctKeys_seq {items : List Tree} :
    DistinctKeys (seq items) ↔ ∀ t ∈ items, DistinctKeys t := by
  show DistinctKeysItems items ↔ _
  induction items with
  | nil => exact ⟨nofun, fun _ => trivial⟩
  | cons t rest ih =>
    rw [List.forall_mem_cons, ← ih]
    exact Iff.rfl

/-- No key occurs twice in a map if none does among its own entries and none does
inside its values. -/
@[simp]
theorem distinctKeys_map {entries : List (String × Tree)} :
    DistinctKeys (map ⟨entries⟩) ↔
      (entries.map Prod.fst).Nodup ∧ ∀ e ∈ entries, DistinctKeys e.2 := by
  refine and_congr Iff.rfl ?_
  show DistinctKeysEntries entries ↔ _
  induction entries with
  | nil => exact ⟨nofun, fun _ => trivial⟩
  | cons e rest ih =>
    rw [List.forall_mem_cons, ← ih]
    exact Iff.rfl

/-- A leaf is no container. -/
@[simp]
theorem height_scalar (v : Scalar) : height (scalar v) = 0 := rfl

/-- A sequence has room in some levels exactly if all its elements have room one level down. -/
@[simp]
theorem height_seq_le {items : List Tree} {levels : Nat} :
    height (seq items) ≤ levels + 1 ↔ ∀ t ∈ items, height t ≤ levels := by
  refine Nat.add_le_add_iff_right.trans ?_
  show heightItems items ≤ levels ↔ _
  induction items with
  | nil => exact ⟨nofun, fun _ => Nat.zero_le _⟩
  | cons t rest ih =>
    rw [List.forall_mem_cons, ← ih]
    exact Nat.max_le

/-- A map has room in some levels exactly if all its values have room one level down. -/
@[simp]
theorem height_map_le {entries : List (String × Tree)} {levels : Nat} :
    height (map ⟨entries⟩) ≤ levels + 1 ↔ ∀ e ∈ entries, height e.2 ≤ levels := by
  refine Nat.add_le_add_iff_right.trans ?_
  show heightEntries entries ≤ levels ↔ _
  induction entries with
  | nil => exact ⟨nofun, fun _ => Nat.zero_le _⟩
  | cons e rest ih =>
    rw [List.forall_mem_cons, ← ih]
    exact Nat.max_le

/-- A sequence is a container, so it has some height. -/
theorem height_seq_pos (items : List Tree) : 0 < height (seq items) :=
  Nat.succ_pos _

/-- A map is a container, so it has some height. -/
theorem height_map_pos (entries : List (String × Tree)) : 0 < height (map ⟨entries⟩) :=
  Nat.succ_pos _

/-- A tree that can be kept in a text: its leaves have the property that the text asks of them, and
no key occurs twice in a map. The formats differ in the numbers that they can write, and in nothing
else. -/
structure Storable (p : Scalar → Prop) (t : Tree) : Prop where
  leaves : t.LeavesAll p
  distinct : t.DistinctKeys

/-- A leaf can be kept in a text if it has the property. -/
@[simp]
theorem storable_scalar {p : Scalar → Prop} {v : Scalar} : Storable p (scalar v) ↔ p v :=
  ⟨fun h => leavesAll_scalar.mp h.leaves, fun h =>
    ⟨leavesAll_scalar.mpr h, distinctKeys_scalar.mpr trivial⟩⟩

/-- A sequence can be kept in a text if its elements can. -/
@[simp]
theorem storable_seq {p : Scalar → Prop} {items : List Tree} :
    Storable p (seq items) ↔ ∀ t ∈ items, Storable p t :=
  ⟨fun h t ht => ⟨leavesAll_seq.mp h.leaves t ht, distinctKeys_seq.mp h.distinct t ht⟩,
    fun h => ⟨leavesAll_seq.mpr fun t ht => (h t ht).leaves,
      distinctKeys_seq.mpr fun t ht => (h t ht).distinct⟩⟩

/-- A map can be kept in a text if its values can and its keys are distinct. -/
@[simp]
theorem storable_map {p : Scalar → Prop} {entries : List (String × Tree)} :
    Storable p (map ⟨entries⟩) ↔ (entries.map Prod.fst).Nodup ∧ ∀ e ∈ entries, Storable p e.2 := by
  constructor
  · intro h
    have hdistinct := distinctKeys_map.mp h.distinct
    exact ⟨hdistinct.1, fun e he => ⟨leavesAll_map.mp h.leaves e he, hdistinct.2 e he⟩⟩
  · rintro ⟨hkeys, h⟩
    exact ⟨leavesAll_map.mpr fun e he => (h e he).leaves,
      distinctKeys_map.mpr ⟨hkeys, fun e he => (h e he).distinct⟩⟩

/-- What can be kept in a text can be kept in one that asks for less. -/
theorem Storable.imp {p q : Scalar → Prop} (hpq : ∀ v, p v → q v) {t : Tree} (h : t.Storable p) :
    t.Storable q :=
  ⟨h.leaves.imp hpq, h.distinct⟩

end ModelGraph.Tree
