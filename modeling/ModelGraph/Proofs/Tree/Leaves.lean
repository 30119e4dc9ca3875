import ModelGraph.Proofs.Tree.Path
import ModelGraph.Proofs.Tree.Storable

/-!
# Trees with other leaves

A function on leaves goes through a tree to all of them. Keys, orders and nesting stay, so looking
into the tree before or after gives the same.

- `Tree.mapLeaves`: the tree with every leaf changed.
- `field?_mapLeaves`, `at?_mapLeaves`, `text?_mapLeaves`: looking into it.
- `ChangedAt.mapLeaves`: what is kept by a change is kept with other leaves too.
- `Fits.mapLeaves`, `mapLeaves_eq_self`: its shape.
-/

namespace ModelGraph.Tree

mutual

/-- The tree with every leaf changed. Keys, orders and containers are those of the tree. -/
def mapLeaves (f : Scalar → Scalar) : Tree → Tree
  | scalar v => scalar (f v)
  | seq items => seq (mapLeavesItems f items)
  | map ⟨entries⟩ => map ⟨mapLeavesEntries f entries⟩

/-- Elements with every leaf changed. -/
def mapLeavesItems (f : Scalar → Scalar) : List Tree → List Tree
  | [] => []
  | t :: rest => mapLeaves f t :: mapLeavesItems f rest

/-- Entries with every leaf changed. -/
def mapLeavesEntries (f : Scalar → Scalar) : List (String × Tree) → List (String × Tree)
  | [] => []
  | (key, t) :: rest => (key, mapLeaves f t) :: mapLeavesEntries f rest

end

variable {f : Scalar → Scalar}

/-- A leaf is changed itself. -/
@[simp]
theorem mapLeaves_scalar (v : Scalar) : mapLeaves f (scalar v) = scalar (f v) := by rw [mapLeaves]

/-- A sequence has its elements changed. -/
@[simp]
theorem mapLeaves_seq (items : List Tree) :
    mapLeaves f (seq items) = seq (items.map (mapLeaves f)) := by
  rw [mapLeaves]
  congr 1
  induction items with
  | nil => rw [mapLeavesItems]; rfl
  | cons t rest ih => rw [mapLeavesItems, ih, List.map_cons]

/-- A map has its values changed. -/
@[simp]
theorem mapLeaves_map (m : OrderedMap Tree) :
    mapLeaves f (map m) = map (m.mapValues fun _ => mapLeaves f) := by
  obtain ⟨entries⟩ := m
  rw [mapLeaves]
  apply congrArg (map ⟨·⟩)
  induction entries with
  | nil => rw [mapLeavesEntries]; rfl
  | cons e rest ih => rw [mapLeavesEntries, ih]; rfl

/-! ## Looking -/

/-- The entries of the changed tree are those of the tree with changed values. -/
@[simp]
theorem fields_mapLeaves (t : Tree) :
    (t.mapLeaves f).fields = t.fields.mapValues fun _ => mapLeaves f := by
  cases t with
  | map m => rw [mapLeaves_map]; rfl
  | seq items => rw [mapLeaves_seq]; rfl
  | scalar v => rw [mapLeaves_scalar]; rfl

/-- The changed tree is a sequence if the tree is one, with its elements changed. -/
@[simp]
theorem seq?_mapLeaves (t : Tree) : (t.mapLeaves f).seq? = t.seq?.map (·.map (mapLeaves f)) := by
  cases t with
  | map m => rw [mapLeaves_map]; rfl
  | seq items => rw [mapLeaves_seq]; rfl
  | scalar v => rw [mapLeaves_scalar]; rfl

/-- The changed tree is a leaf if the tree is one, with its value changed. -/
@[simp]
theorem scalar?_mapLeaves (t : Tree) : (t.mapLeaves f).scalar? = t.scalar?.map f := by
  cases t with
  | map m => rw [mapLeaves_map]; rfl
  | seq items => rw [mapLeaves_seq]; rfl
  | scalar v => rw [mapLeaves_scalar]; rfl

/-- Leaves and containers stay what they are. -/
@[simp]
theorem isScalar_mapLeaves (t : Tree) : (t.mapLeaves f).isScalar = t.isScalar := by
  cases t with
  | map m => rw [mapLeaves_map]; rfl
  | seq items => rw [mapLeaves_seq]; rfl
  | scalar v => rw [mapLeaves_scalar]; rfl

/-- A key has its value changed. -/
theorem field?_mapLeaves (t : Tree) (key : String) :
    (t.mapLeaves f).field? key = (t.field? key).map (mapLeaves f) := by
  cases t with
  | map m =>
    rw [mapLeaves_map]
    exact OrderedMap.get?_mapValues m _ key
  | seq items => rw [mapLeaves_seq]; rfl
  | scalar v => rw [mapLeaves_scalar]; rfl

/-- A path leads to what it led to before, with other leaves. -/
theorem at?_mapLeaves (t : Tree) (path : List String) :
    (t.mapLeaves f).at? path = (t.at? path).map (mapLeaves f) := by
  induction path generalizing t with
  | nil => rfl
  | cons key rest ih =>
    rw [at?, at?, field?_mapLeaves]
    cases t.field? key with
    | none => rfl
    | some inner => exact ih inner

/-- Leaves that keep their texts keep them inside a tree. -/
theorem text?_mapLeaves (hf : ∀ v, (f v).toText = v.toText) (t : Tree) :
    (t.mapLeaves f).text? = t.text? := by
  rw [text?, text?, scalar?_mapLeaves, Option.map_map]
  exact congrArg (t.scalar?.map ·) (funext hf)

/-- The map below a key has its leaves changed; one that is made for the key has none. -/
theorem child_mapLeaves (t : Tree) (key : String) :
    (t.mapLeaves f).child key = (t.child key).mapLeaves f := by
  rw [child, child, field?_mapLeaves]
  cases t.field? key with
  | none => exact (mapLeaves_map OrderedMap.empty).symm
  | some inner => simp [toMap]

/-- A change at some keys is one at these keys with other leaves as well. -/
theorem ChangedAt.mapLeaves {keys : List String} {t t' : Tree} (h : ChangedAt keys t t') :
    ChangedAt keys (t.mapLeaves f) (t'.mapLeaves f) where
  isMap := by
    have hmap : t'.mapLeaves f = map (t'.fields.mapValues fun _ => Tree.mapLeaves f) := by
      conv_lhs => rw [← h.isMap, toMap, mapLeaves_map]
    rw [hmap]
    rfl
  keys_eq := by
    simp only [fields_mapLeaves, OrderedMap.keys_mapValues]
    exact h.keys_eq
  others k hk := by rw [field?_mapLeaves, field?_mapLeaves, h.others k hk]

/-! ## Shape -/

/-- Other leaves make no tree higher. -/
theorem height_mapLeaves_le {levels : Nat} {t : Tree} (h : t.height ≤ levels) :
    (t.mapLeaves f).height ≤ levels := by
  induction t using Tree.induct generalizing levels with
  | scalar v =>
    rw [mapLeaves_scalar, height_scalar]
    exact Nat.zero_le _
  | seq items ih =>
    -- a container takes a level for itself, so there is one
    obtain ⟨inner, rfl⟩ := Nat.exists_eq_add_one_of_ne_zero
      (Nat.ne_of_gt (Nat.lt_of_lt_of_le (height_seq_pos items) h))
    rw [mapLeaves_seq, height_seq_le]
    intro t ht
    obtain ⟨item, hitem, rfl⟩ := List.mem_map.mp ht
    exact ih item hitem (height_seq_le.mp h item hitem)
  | map entries ih =>
    obtain ⟨inner, rfl⟩ := Nat.exists_eq_add_one_of_ne_zero
      (Nat.ne_of_gt (Nat.lt_of_lt_of_le (height_map_pos entries) h))
    rw [mapLeaves_map]
    refine height_map_le.mpr fun e he => ?_
    obtain ⟨x, hx, rfl⟩ := List.mem_map.mp he
    exact ih x hx (height_map_le.mp h x hx)

/-- A tree whose leaves are changed into ones with a property. -/
theorem Storable.mapLeaves {p q : Scalar → Prop} (hf : ∀ v, p v → q (f v)) {t : Tree}
    (h : t.Storable p) : (t.mapLeaves f).Storable q := by
  induction t using Tree.induct with
  | scalar v =>
    rw [mapLeaves_scalar, storable_scalar]
    exact hf v (storable_scalar.mp h)
  | seq items ih =>
    rw [mapLeaves_seq, storable_seq]
    intro t ht
    obtain ⟨item, hitem, rfl⟩ := List.mem_map.mp ht
    exact ih item hitem (storable_seq.mp h item hitem)
  | map entries ih =>
    obtain ⟨hkeys, hvalues⟩ := storable_entries.mp h
    rw [mapLeaves_map]
    refine storable_mapValues hkeys fun key value hget => ?_
    -- distinct keys: what is found under a key is the only entry with it
    have hmem := (hkeys.get?_eq_some_iff key value).mp hget
    exact ih _ hmem (hvalues _ hmem)

/-- A tree with other leaves fits where these leaves may stand. -/
theorem Fits.mapLeaves {p q : Scalar → Prop} {levels : Nat} (hf : ∀ v, p v → q (f v)) {t : Tree}
    (h : t.Fits p levels) : (t.mapLeaves f).Fits q levels :=
  ⟨h.storable.mapLeaves hf, height_mapLeaves_le h.height⟩

/-- Leaves that stay as they are leave the tree as it is. -/
theorem mapLeaves_eq_self {t : Tree} (h : t.LeavesAll fun v => f v = v) : t.mapLeaves f = t := by
  induction t using Tree.induct with
  | scalar v => rw [mapLeaves_scalar, leavesAll_scalar.mp h]
  | seq items ih =>
    have hitems := leavesAll_seq.mp h
    rw [mapLeaves_seq, List.map_congr_left fun t ht => ih t ht (hitems t ht), List.map_id']
  | map entries ih =>
    have hvalues := leavesAll_map.mp h
    rw [mapLeaves_map]
    refine congrArg (map ⟨·⟩) ((List.map_congr_left fun e he => ?_).trans (List.map_id entries))
    exact congrArg (e.1, ·) (ih e he (hvalues e he))

end ModelGraph.Tree
