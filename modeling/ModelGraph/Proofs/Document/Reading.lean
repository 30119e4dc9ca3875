import ModelGraph.Document.Reader
import ModelGraph.Proofs.OrderedMap
import ModelGraph.Proofs.Tree.Shape

/-!
# Reading what was written

The events of a tree, and the readers that give values back from them. A reader takes exactly the
events of its value from the front, whatever stands behind them, so readers of containers follow
from readers of what is in them.

- `Yields`: a reader takes some events and answers a value.
- `yields_readElements`, `Enters`: containers from their parts.
- `Faithful`, `Legible`: what is asked of a format and of a tree.
- `restores_tree`: trees.
-/

namespace ModelGraph.Document

variable {σ α β ε : Type}

/-! ## Events of trees -/

section

variable (leaf : Scalar → σ)

mutual

/-- The events of a tree in a format with the given leaves. Keys are leaves as well. Formats differ
in the texts they write, but what they write for a tree is read as these events. -/
def treeEvents : Tree → List (Event σ)
  | .scalar v => [.leaf (leaf v)]
  | .seq items => .openSeq false :: (itemsEvents items ++ [.closeSeq])
  | .map ⟨entries⟩ => .openMap false :: (entriesEvents entries ++ [.closeMap])

/-- The events of elements. -/
def itemsEvents : List Tree → List (Event σ)
  | [] => []
  | t :: rest => treeEvents t ++ itemsEvents rest

/-- The events of entries. -/
def entriesEvents : List (String × Tree) → List (Event σ)
  | [] => []
  | (key, t) :: rest => .leaf (leaf (.text key)) :: treeEvents t ++ entriesEvents rest

end

/-- The events of one entry. -/
def entryEvents (e : String × Tree) : List (Event σ) :=
  [.leaf (leaf (.text e.1))] ++ treeEvents leaf e.2

/-- The events of a leaf. -/
@[simp]
theorem treeEvents_scalar (v : Scalar) : treeEvents leaf (.scalar v) = [.leaf (leaf v)] := by
  rw [treeEvents]

/-- The events of a sequence. -/
@[simp]
theorem treeEvents_seq (items : List Tree) :
    treeEvents leaf (.seq items) =
      .openSeq false :: (items.flatMap (treeEvents leaf) ++ [.closeSeq]) := by
  rw [treeEvents]
  congr 2
  induction items with
  | nil => rw [itemsEvents]; rfl
  | cons t rest ih => rw [itemsEvents, ih, List.flatMap_cons]

/-- The events of a map. -/
@[simp]
theorem treeEvents_map (entries : List (String × Tree)) :
    treeEvents leaf (.map ⟨entries⟩) =
      .openMap false :: (entries.flatMap (entryEvents leaf) ++ [.closeMap]) := by
  rw [treeEvents]
  congr 2
  induction entries with
  | nil => rw [entriesEvents]; rfl
  | cons e rest ih =>
    rw [entriesEvents, ih, List.flatMap_cons]
    rfl

end

/-! ## Values in events -/

/-- The reader takes the events and answers the value, whatever stands behind them. It follows no
reference on the way, so the count of these stays the same. -/
def Yields (read : Reader σ α) (events : List (Event σ)) (a : α) : Prop :=
  ∀ rest jumps, read ⟨events ++ rest, jumps⟩ = .ok (a, ⟨rest, jumps⟩)

/-- The events begin like a value that is written out, neither with the end of a container nor with
a reference. -/
def BeginsValue : List (Event σ) → Prop
  | .leaf _ :: _ => True
  | .openSeq _ :: _ => True
  | .openMap _ :: _ => True
  | _ => False

/-- The events of a tree begin like a value. -/
theorem beginsValue_treeEvents (leaf : Scalar → σ) (t : Tree) :
    BeginsValue (treeEvents leaf t) := by
  cases t with
  | scalar v => rw [treeEvents_scalar]; trivial
  | seq items => rw [treeEvents_seq]; trivial
  | map fields =>
    obtain ⟨entries⟩ := fields
    rw [treeEvents_map]
    trivial

theorem BeginsValue.append {events : List (Event σ)} (h : BeginsValue events)
    (rest : List (Event σ)) :
    BeginsValue (events ++ rest) := by
  match events, h with
  | .leaf _ :: _, _ => trivial
  | .openSeq _ :: _, _ => trivial
  | .openMap _ :: _, _ => trivial

theorem BeginsValue.ne_nil {events : List (Event σ)} (h : BeginsValue events) : events ≠ [] := by
  rintro rfl
  exact h

/-- References matter only where there are some. -/
theorem Yields.resolve {read : Reader σ α} {events : List (Event σ)} {a : α} (c : Context σ)
    (h : Yields read events a) (hbegins : BeginsValue events) :
    Yields (c.resolve read) events a := by
  intro rest jumps
  rw [← h rest jumps]
  match events, hbegins with
  | .leaf _ :: _, _ => rfl
  | .openSeq _ :: _, _ => rfl
  | .openMap _ :: _, _ => rfl

/-- A typed leaf is read from its event. -/
theorem yields_leaf (c : Context σ) {value? : σ → Option α} {value : σ} {a : α}
    (h : value? value = some a) :
    Yields (c.leaf value?) [.leaf value] a := by
  refine Yields.resolve c (fun rest jumps => ?_) trivial
  simp [h]

/-! ## Containers -/

/-- Where a value begins the elements go on: the next one is read, and then the others. -/
theorem readElements_succ (element : Reader σ α) (fuel : Nat) {events : List (Event σ)}
    (h : BeginsValue events) (jumps : Nat) :
    readElements element (fuel + 1) ⟨events, jumps⟩ = (do
      let (first, s) ← element ⟨events, jumps⟩
      let (others, s) ← readElements element fuel s
      .ok (first :: others, s)) := by
  match events, h with
  | .leaf _ :: _, _ => rfl
  | .openSeq _ :: _, _ => rfl
  | .openMap _ :: _, _ => rfl

/-- Where a value begins the entries go on: the next key and its value are read, and then the
others. -/
theorem readEntries_succ (key : Reader σ β) (entry : β → α → Reader σ α) (fuel : Nat) (sofar : α)
    {events : List (Event σ)} (h : BeginsValue events) (jumps : Nat) :
    readEntries key entry (fuel + 1) sofar ⟨events, jumps⟩ = (do
      let (k, s) ← key ⟨events, jumps⟩
      let (sofar, s) ← entry k sofar s
      readEntries key entry fuel sofar s) := by
  match events, h with
  | .leaf _ :: _, _ => rfl
  | .openSeq _ :: _, _ => rfl
  | .openMap _ :: _, _ => rfl

/-- Elements are read in their order, up to the end of their sequence. It takes fuel for each of
them and for the end. -/
theorem yields_readElements {element : Reader σ α} {events : α → List (Event σ)} {xs : List α}
    (h : ∀ x ∈ xs, Yields element (events x) x ∧ BeginsValue (events x)) {fuel : Nat}
    (hfuel : xs.length < fuel) :
    Yields (readElements element fuel) (xs.flatMap events ++ [.closeSeq]) xs := by
  induction xs generalizing fuel with
  | nil =>
    obtain ⟨fuel, rfl⟩ := Nat.exists_eq_add_one_of_ne_zero (Nat.ne_of_gt hfuel)
    exact fun rest jumps => rfl
  | cons x others ih =>
    obtain ⟨fuel, rfl⟩ := Nat.exists_eq_add_one_of_ne_zero (Nat.ne_of_gt (Nat.zero_lt_of_lt hfuel))
    obtain ⟨⟨hx, hbegins⟩, hothers⟩ := List.forall_mem_cons.mp h
    intro rest jumps
    have hrest := ih hothers (Nat.lt_of_succ_lt_succ hfuel) rest jumps
    -- the first element is read, since it does not begin with the end of the sequence
    rw [List.flatMap_cons, List.append_assoc, List.append_assoc,
      ← List.append_assoc (others.flatMap events),
      readElements_succ element fuel (hbegins.append _), hx]
    simp only [bind, Except.bind]
    rw [hrest]

/-- The events are those of entries that take what has been read from one value to another one. What
the entries fill may be a map or the draft of a record. -/
inductive Enters (key : Reader σ β) (entry : β → α → Reader σ α) : α → List (Event σ) → α → Prop
  | nil (a : α) : Enters key entry a [] a
  | cons {a a' a'' : α} {k : β} {keyEvents valueEvents others : List (Event σ)}
      (name : Yields key keyEvents k) (begins : BeginsValue keyEvents)
      (value : Yields (entry k a) valueEvents a') (rest : Enters key entry a' others a'') :
      Enters key entry a (keyEvents ++ valueEvents ++ others) a''

/-- Entries are read in their order, up to the end of their map. The fuel is more than the events,
and each entry takes some of them. -/
theorem Enters.yields {key : Reader σ β} {entry : β → α → Reader σ α} {a a' : α}
    {events : List (Event σ)} (h : Enters key entry a events a') {fuel : Nat}
    (hfuel : events.length < fuel) :
    Yields (readEntries key entry fuel a) (events ++ [.closeMap]) a' := by
  obtain ⟨fuel, rfl⟩ := Nat.exists_eq_add_one_of_ne_zero (Nat.ne_of_gt (Nat.zero_lt_of_lt hfuel))
  -- an entry has events of its own, so the number of events is fuel enough
  induction h generalizing fuel with
  | nil => exact fun rest jumps => rfl
  | cons name begins value _ ih =>
    rename_i keyEvents valueEvents others _
    have hkey := List.length_pos_iff.mpr begins.ne_nil
    simp only [List.length_append] at hfuel
    obtain ⟨fuel, rfl⟩ := Nat.exists_eq_add_one_of_ne_zero (n := fuel) (by omega)
    intro rest jumps
    -- the others have the fuel that is left, since the key has an event at least
    have hrest := ih fuel (by omega) rest jumps
    rw [List.append_assoc, List.append_assoc, List.append_assoc, ← List.append_assoc others,
      readEntries_succ key entry _ _ (begins.append _), name]
    simp only [bind, Except.bind]
    rw [value]
    exact hrest

/-! ## Documents -/

/-- What a format makes of the leaves that are written: values of leaves that are written well come
back, texts come back always, and no optional value goes missing. Both formats satisfy this, so
trees, records and graphs are read back from either of them by the same proofs. -/
structure Faithful (f : Format σ) (leaf : Scalar → σ) (ok : Scalar → Prop) : Prop where
  key : ∀ s, ok (.text s)
  scalar : ∀ v, ok v → f.scalar (leaf v) = some v
  text : ∀ s, f.text (leaf (.text s)) = some s
  integer : ∀ i, f.integer (leaf (.int i)) = some i
  float : ∀ x, ok (.float x) → f.float (leaf (.float x)) = some x
  bool : ∀ b, f.bool (leaf (.bool b)) = some b
  presence : ∀ v, ok v → f.presence (leaf v) = .present

/-- A tree that is written well: it can be kept in a text, there are levels enough for it, and it is
no longer than the whole document. The last one is what the fuel of the readers is measured by. -/
structure Legible (c : Context σ) (leaf : Scalar → σ) (ok : Scalar → Prop) (levels : Nat)
    (t : Tree) : Prop where
  storable : t.Storable ok
  height : t.height ≤ levels
  size : (treeEvents leaf t).length ≤ c.source.events.length

/-- A list has no more elements than there are in lists that are made of them, if none of these is
empty. -/
theorem length_le_length_flatMap {xs : List ε} {f : ε → List α} (h : ∀ x ∈ xs, f x ≠ []) :
    xs.length ≤ (xs.flatMap f).length := by
  induction xs with
  | nil => exact Nat.zero_le _
  | cons x others ih =>
    obtain ⟨hx, hothers⟩ := List.forall_mem_cons.mp h
    have hpos := List.length_pos_iff.mpr hx
    have hle := ih hothers
    rw [List.flatMap_cons, List.length_append, List.length_cons]
    omega

/-- A part of a list in front of one more element is no longer than the whole. -/
theorem length_le_of_mem_flatMap {xs : List ε} {f : ε → List α} {x : ε} (h : x ∈ xs) :
    (f x).length ≤ (xs.flatMap f).length := by
  obtain ⟨before, after, rfl⟩ := List.append_of_mem h
  simp only [List.flatMap_append, List.flatMap_cons, List.length_append]
  omega

section

variable {c : Context σ} {leaf : Scalar → σ} {ok : Scalar → Prop}

/-- The elements of a tree that is written well are so one level down, and they are fewer than the
events. -/
theorem Legible.items {levels : Nat} {items : List Tree}
    (h : Legible c leaf ok levels (.seq items)) :
    ∃ inner, levels = inner + 1 ∧ items.length < c.fuel ∧
      ∀ t ∈ items, Legible c leaf ok inner t := by
  obtain ⟨inner, rfl⟩ := Nat.exists_eq_add_one_of_ne_zero
    (Nat.ne_of_gt (Nat.lt_of_lt_of_le (Tree.height_seq_pos items) h.height))
  -- the brackets of the sequence take events as well, so its elements have fewer than the document
  have hsize := h.size
  rw [treeEvents_seq, List.length_cons, List.length_append] at hsize
  have hcount : items.length ≤ (items.flatMap (treeEvents leaf)).length :=
    length_le_length_flatMap fun t _ => (beginsValue_treeEvents leaf t).ne_nil
  refine ⟨inner, rfl, ?_, fun t ht => ?_⟩
  · rw [Context.fuel]
    omega
  · have hpart : (treeEvents leaf t).length ≤ (items.flatMap (treeEvents leaf)).length :=
      length_le_of_mem_flatMap ht
    exact ⟨Tree.storable_seq.mp h.storable t ht, Tree.height_seq_le.mp h.height t ht, by omega⟩

/-- The values of a tree that is written well are so one level down, and the entries are fewer than
the events. -/
theorem Legible.entries {levels : Nat} {entries : List (String × Tree)}
    (h : Legible c leaf ok levels (.map ⟨entries⟩)) :
    ∃ inner, levels = inner + 1 ∧ (entries.flatMap (entryEvents leaf)).length < c.fuel ∧
      ∀ e ∈ entries, Legible c leaf ok inner e.2 := by
  obtain ⟨inner, rfl⟩ := Nat.exists_eq_add_one_of_ne_zero
    (Nat.ne_of_gt (Nat.lt_of_lt_of_le (Tree.height_map_pos entries) h.height))
  have hsize := h.size
  rw [treeEvents_map, List.length_cons, List.length_append] at hsize
  refine ⟨inner, rfl, ?_, fun e he => ?_⟩
  · rw [Context.fuel]
    omega
  -- the events of a value are some of those of its map
  · have hpart : (entryEvents leaf e).length ≤ (entries.flatMap (entryEvents leaf)).length :=
      length_le_of_mem_flatMap he
    rw [entryEvents, List.length_append] at hpart
    exact ⟨(Tree.storable_map.mp h.storable).2 e he, Tree.height_map_le.mp h.height e he, by omega⟩

end

/-- A reader answers a value for a tree, wherever the tree is written well. For the reader of trees
this value is the tree itself, and for a typed reader the value that the tree was made of. -/
def Restores (c : Context σ) (leaf : Scalar → σ) (ok : Scalar → Prop) (read : Nat → Reader σ α)
    (a : α) (t : Tree) : Prop :=
  ∀ levels, Legible c leaf ok levels t → Yields (read levels) (treeEvents leaf t) a

/-- A whole document that is written well is read. -/
theorem Restores.run {c : Context σ} {leaf : Scalar → σ} {ok : Scalar → Prop}
    {read : Nat → Reader σ α} {a : α} {t : Tree} (h : Restores c leaf ok read a t)
    (hsource : c.source = ⟨treeEvents leaf t, [], false⟩)
    (hstorable : t.Storable ok) (hheight : t.height ≤ c.format.levels) :
    c.run read = .ok a := by
  have hsize : (treeEvents leaf t).length ≤ c.source.events.length :=
    Nat.le_of_eq (congrArg (List.length ·.events) hsource.symm)
  -- the document is all there is, so nothing is left behind the tree
  have hread := h c.format.levels ⟨hstorable, hheight, hsize⟩ [] 0
  rw [List.append_nil] at hread
  rw [Context.run, hsource]
  simp only [hread, bind, Except.bind]
  rfl

/-! ## Trees -/

/-- Entries are inserted one after the other. -/
def insertInto (child : Reader σ Tree) (key : Tree) (sofar : OrderedMap Tree) :
    Reader σ (OrderedMap Tree) :=
  fun s => do
    let (value, s) ← child s
    match key.text? with
    | some name => .ok (sofar.insert name value, s)
    | none => .error (.unsupportedKey key)

/-- A map is read as its entries, which begin with none. -/
theorem treeNode_openMap (c : Context σ) (child : Reader σ Tree) (rest : List (Event σ))
    (jumps : Nat) :
    c.treeNode (some child) ⟨.openMap false :: rest, jumps⟩ = (do
      let (fields, s) ← readEntries child (insertInto child) c.fuel OrderedMap.empty ⟨rest, jumps⟩
      .ok (.map fields, s)) := rfl

/-- An entry is inserted under its key. -/
theorem yields_insertInto {child : Reader σ Tree} {events : List (Event σ)} {value : Tree}
    (h : Yields child events value) (name : String) (sofar : OrderedMap Tree) :
    Yields (insertInto child (.text name) sofar) events (sofar.insert name value) := by
  intro rest jumps
  rw [insertInto, h]
  rfl

/-- The reader of the trees that are nested at most so deep. -/
theorem tree_eq (c : Context σ) (levels : Nat) :
    c.tree levels = c.resolve (c.treeNode (match levels with
      | 0 => none
      | inner + 1 => some (c.tree inner))) := by
  cases levels <;> rfl

section

variable {c : Context σ} {leaf : Scalar → σ} {ok : Scalar → Prop}

/-- A leaf that is written well is read back. -/
theorem yields_scalar (hformat : Faithful c.format leaf ok) {v : Scalar} (hv : ok v)
    (levels : Nat) :
    Yields (c.tree levels) [.leaf (leaf v)] (.scalar v) := by
  rw [tree_eq]
  refine Yields.resolve c (fun rest jumps => ?_) trivial
  -- a leaf takes no level, so it does not matter whether there is one
  cases levels <;> simp [Context.treeNode, hformat.scalar v hv]

/-- Entries are inserted in their order, with their keys read as trees. Keys are texts, which every
format reads back. -/
theorem enters_insertInto (hformat : Faithful c.format leaf ok) {inner : Nat}
    {entries : List (String × Tree)}
    (h : ∀ e ∈ entries, Yields (c.tree inner) (treeEvents leaf e.2) e.2) (sofar : OrderedMap Tree) :
    Enters (c.tree inner) (insertInto (c.tree inner)) sofar (entries.flatMap (entryEvents leaf))
      (entries.foldl (fun m e => m.insert e.1 e.2) sofar) := by
  induction entries generalizing sofar with
  | nil => exact .nil sofar
  | cons e others ih =>
    obtain ⟨he, hothers⟩ := List.forall_mem_cons.mp h
    -- the key is read as a leaf, which is a text of its own
    exact .cons (yields_scalar hformat (hformat.key e.1) inner) trivial
      (yields_insertInto he e.1 sofar)
      (ih hothers _)

/-- **A tree is read back from its events.** The induction is over the tree; its leaves are read
back by the format, and its keys as texts. -/
theorem restores_tree (hformat : Faithful c.format leaf ok) (t : Tree) :
    Restores c leaf ok c.tree t t := by
  intro levels hlegible
  -- every level of the tree takes one of the levels that are allowed
  induction t using Tree.induct generalizing levels with
  | scalar v =>
    rw [treeEvents_scalar]
    exact yields_scalar hformat (Tree.storable_scalar.mp hlegible.storable) levels
  | seq items ih =>
    obtain ⟨inner, rfl, hfuel, hitems⟩ := hlegible.items
    have hread : ∀ t ∈ items, Yields (c.tree inner) (treeEvents leaf t) t ∧
        BeginsValue (treeEvents leaf t) :=
      fun t ht => ⟨ih t ht inner (hitems t ht), beginsValue_treeEvents leaf t⟩
    rw [tree_eq]
    refine Yields.resolve c (fun rest jumps => ?_) (beginsValue_treeEvents leaf _)
    rw [treeEvents_seq, List.cons_append]
    simp only [Context.treeNode, yields_readElements hread hfuel rest jumps, bind, Except.bind]
  | map entries ih =>
    obtain ⟨inner, rfl, hfuel, hvalues⟩ := hlegible.entries
    have hread :=
      (enters_insertInto hformat (fun e he => ih e he inner (hvalues e he)) .empty).yields hfuel
    -- keys are distinct, so inserting the entries one by one gives the map that was written
    have hfold : entries.foldl (fun m e => m.insert e.1 e.2) OrderedMap.empty = ⟨entries⟩ :=
      OrderedMap.ofList_eq_of_nodup (Tree.storable_map.mp hlegible.storable).1
    rw [hfold] at hread
    rw [tree_eq]
    refine Yields.resolve c (fun rest jumps => ?_) (beginsValue_treeEvents leaf _)
    rw [treeEvents_map, List.cons_append, treeNode_openMap, hread]
    rfl

end

end ModelGraph.Document
