import ModelGraph.Proofs.Document.Reading

/-!
# Reading records that were written

Typed values are read back from the trees that are written for them: leaves of a known kind,
optional values that are there, lists, and records whose absent fields are left out.

- `restores_text` and its like: leaves of a known kind.
- `Restores.optional`, `restores_list`: values built from others.
- `Fills`: the entries of a tree fill the fields of a record in their order.
- `restores_record`: records.
-/

namespace ModelGraph.Document

variable {σ α β δ : Type} {c : Context σ} {leaf : Scalar → σ} {ok : Scalar → Prop}

/-! ## Leaves -/

section

variable (hformat : Faithful c.format leaf ok)

include hformat

/-- A text is read back where one is wanted. -/
theorem yields_text (s : String) : Yields c.text [.leaf (leaf (.text s))] s :=
  yields_leaf c (hformat.text s)

/-- A text is read back from a tree that is one. -/
theorem restores_text (s : String) : Restores c leaf ok (fun _ => c.text) s (.text s) := by
  intro levels _
  rw [Tree.text, treeEvents_scalar]
  exact yields_text hformat s

/-- So is an integer. -/
theorem restores_integer (i : Int64) :
    Restores c leaf ok (fun _ => c.integer) i (.scalar (.int i)) := by
  intro levels _
  rw [treeEvents_scalar]
  exact yields_leaf c (hformat.integer i)

/-- So is a floating point number that the format reads back. -/
theorem restores_float (x : Binary64) : Restores c leaf ok (fun _ => c.float) x (.float x) := by
  intro levels hlegible
  rw [Tree.float, treeEvents_scalar]
  exact yields_leaf c (hformat.float x (Tree.storable_scalar.mp hlegible.storable))

/-- So is a truth value. -/
theorem restores_bool (b : Bool) : Restores c leaf ok (fun _ => c.bool) b (.bool b) := by
  intro levels _
  rw [Tree.bool, treeEvents_scalar]
  exact yields_leaf c (hformat.bool b)

/-! ## Optional values and lists -/

/-- An optional value that is there is read back, also if it is an empty text or a blank tree. Its
document is never one that counts as absent. -/
theorem Restores.optional {read : Nat → Reader σ α} {a : α} {t : Tree}
    (h : Restores c leaf ok read a t) :
    Restores c leaf ok (fun levels => c.optional (read levels)) (some a) t := by
  intro levels hlegible
  have hread := h levels hlegible
  refine Yields.resolve c (fun rest jumps => ?_) (beginsValue_treeEvents leaf t)
  -- a container is never absent; a leaf might be, unless the format takes it for present
  have hwhole := hread rest jumps
  cases t with
  | scalar v =>
    have hpresent := hformat.presence v (Tree.storable_scalar.mp hlegible.storable)
    rw [treeEvents_scalar] at hwhole ⊢
    simp only [List.singleton_append, hpresent] at hwhole ⊢
    rw [hwhole]
    rfl
  | seq items =>
    rw [treeEvents_seq] at hwhole ⊢
    simp only [List.cons_append] at hwhole ⊢
    rw [hwhole]
    rfl
  | map fields =>
    obtain ⟨entries⟩ := fields
    rw [treeEvents_map] at hwhole ⊢
    simp only [List.cons_append] at hwhole ⊢
    rw [hwhole]
    rfl

end

/-- A list is read back if its elements are. -/
theorem restores_list {element : Nat → Reader σ α} {document : α → Tree} {xs : List α}
    (h : ∀ x ∈ xs, Restores c leaf ok element x (document x)) :
    Restores c leaf ok (c.list element) xs (.seq (xs.map document)) := by
  intro levels hlegible
  obtain ⟨inner, rfl, hfuel, hitems⟩ := hlegible.items
  rw [List.length_map] at hfuel
  have hread : ∀ x ∈ xs, Yields (element inner) (treeEvents leaf (document x)) x ∧
      BeginsValue (treeEvents leaf (document x)) :=
    fun x hx => ⟨h x hx inner (hitems _ (List.mem_map_of_mem hx)), beginsValue_treeEvents leaf _⟩
  -- the document is no reference, so it is read where it stands
  refine Yields.resolve c (fun rest jumps => ?_) (beginsValue_treeEvents leaf _)
  rw [treeEvents_seq, List.flatMap_map, List.cons_append]
  exact yields_readElements hread hfuel rest jumps

/-! ## Records -/

/-- The entries fill the fields in their order and take the draft of the record from one state to
another one. A field without an entry is left out. Writers keep to the order of the fields, so this
is all that is needed of what is written, though readers take the entries in any order. -/
inductive Fills (c : Context σ) (leaf : Scalar → σ) (ok : Scalar → Prop) :
    List (FieldReader σ δ) → List (String × Tree) → δ → δ → Prop
  | nil (d : δ) : Fills c leaf ok [] [] d d
  | take {f : FieldReader σ δ} {fields : List (FieldReader σ δ)} {t : Tree}
      {entries : List (String × Tree)} {d d' d'' : δ} (unset : f.isSet d = false)
      (read : Restores c leaf ok (fun levels => f.read levels d) d' t)
      (rest : Fills c leaf ok fields entries d' d'') :
      Fills c leaf ok (f :: fields) ((f.name, t) :: entries) d d''
  | skip {f : FieldReader σ δ} {fields : List (FieldReader σ δ)} {entries : List (String × Tree)}
      {d d' : δ} (rest : Fills c leaf ok fields entries d d') :
      Fills c leaf ok (f :: fields) entries d d'

/-- A field with its value. The drafts are numbered by the fields that have been read, so that for a
record they are all given at once and each step is seen to lead from one to the next. -/
theorem Fills.field {name : String} {get : δ → Option α} {put : α → δ → δ} {read : Nat → Reader σ α}
    {fields : List (FieldReader σ δ)} {a : α} {t : Tree} {entries : List (String × Tree)}
    {draft : Nat → δ} {i : Nat} {d : δ} (h : Restores c leaf ok read a t)
    (hnew : get (draft i) = none) (hput : put a (draft i) = draft (i + 1))
    (rest : Fills c leaf ok fields entries (draft (i + 1)) d) :
    Fills c leaf ok (Document.field name get put read :: fields) ((name, t) :: entries)
      (draft i) d := by
  -- the draft does not have the field yet, and putting its value gives the next draft
  refine .take (f := Document.field name get put read) ?_ (fun levels hlegible => ?_) rest
  · show (get (draft i)).isSome = false
    rw [hnew]
    rfl
  · intro others jumps
    simp only [Document.field, h levels hlegible others jumps, bind, Except.bind, hput]

/-- A field that is left out if its value is absent. The draft then passes to the next field as it
is. -/
theorem Fills.optional (hformat : Faithful c.format leaf ok) {name : String}
    {get : δ → Option (Option α)} {put : Option α → δ → δ} {read : Nat → Reader σ α}
    {document : α → Tree} {fields : List (FieldReader σ δ)} {value : Option α}
    {entries : List (String × Tree)} {draft : Nat → δ} {i : Nat} {d : δ}
    (h : ∀ a, Restores c leaf ok read a (document a)) (hnew : get (draft i) = none)
    (hput : value.elim (draft i) (fun a => put (some a) (draft i)) = draft (i + 1))
    (rest : Fills c leaf ok fields entries (draft (i + 1)) d) :
    Fills c leaf ok (Document.field name get put (fun levels => c.optional (read levels)) :: fields)
      (Tree.optionalField name document value ++ entries) (draft i) d := by
  -- an absent value has no entry, and its field keeps what it begins with
  cases value with
  | none =>
    have hsame : draft i = draft (i + 1) := hput
    rw [hsame]
    exact .skip rest
  | some a => exact .field (Restores.optional hformat (h a)) hnew hput rest

/-- The last field, left out if its value is absent. -/
theorem Fills.optional_last (hformat : Faithful c.format leaf ok) {name : String}
    {get : δ → Option (Option α)} {put : Option α → δ → δ} {read : Nat → Reader σ α}
    {document : α → Tree} {value : Option α} {draft : Nat → δ} {i : Nat}
    (h : ∀ a, Restores c leaf ok read a (document a)) (hnew : get (draft i) = none)
    (hput : value.elim (draft i) (fun a => put (some a) (draft i)) = draft (i + 1)) :
    Fills c leaf ok [Document.field name get put (fun levels => c.optional (read levels))]
      (Tree.optionalField name document value) (draft i) (draft (i + 1)) := by
  rw [← List.append_nil (Tree.optionalField name document value)]
  exact .optional hformat h hnew hput (.nil _)

/-- The entries of a record are read in their order, each by the field of its name. The names are
distinct, so no other field is found. -/
theorem Fills.enters (hformat : Faithful c.format leaf ok) {r : RecordReader σ δ α}
    (hnames : (r.fields.map FieldReader.name).Nodup) {fields : List (FieldReader σ δ)}
    (hfields : ∀ f ∈ fields, f ∈ r.fields) {entries : List (String × Tree)} {d d' : δ}
    (h : Fills c leaf ok fields entries d d') {inner : Nat}
    (hlegible : ∀ e ∈ entries, Legible c leaf ok inner e.2) :
    Enters c.text (r.entry inner) d (entries.flatMap (entryEvents leaf)) d' := by
  induction h with
  | nil d => exact .nil d
  -- the name finds the field among all of them, not only among those that are left
  | @take f others t entries d d' d'' unset read _ ih =>
    obtain ⟨hf, hothers⟩ := List.forall_mem_cons.mp hfields
    obtain ⟨ht, hentries⟩ := List.forall_mem_cons.mp hlegible
    have hfind : r.fields.find? (·.name == f.name) = some f := OrderedMap.find?_key hnames hf
    have hentry : Yields (r.entry inner f.name d) (treeEvents leaf t) d' := by
      intro rest jumps
      simp only [RecordReader.entry, hfind, unset]
      exact read inner ht rest jumps
    exact .cons (yields_text hformat f.name) trivial hentry (ih hothers hentries)
  | skip _ ih => exact ih (List.forall_mem_cons.mp hfields).2 hlegible

/-- **A record is read back from the tree of its fields.** Its fields have different names, and the
draft with all of them filled has all that the record requires. -/
theorem restores_record (hformat : Faithful c.format leaf ok) {r : RecordReader σ δ α}
    (hnames : (r.fields.map FieldReader.name).Nodup) {entries : List (String × Tree)} {d : δ}
    {a : α} (h : Fills c leaf ok r.fields entries r.start d) (hfinish : r.finish d = some a) :
    Restores c leaf ok (c.record r) a (.map ⟨entries⟩) := by
  intro levels hlegible
  obtain ⟨inner, rfl, hfuel, hvalues⟩ := hlegible.entries
  -- the fields fill the draft, from which the record is made in the end
  have hdraft : Yields (c.draft r (inner + 1)) (treeEvents leaf (.map ⟨entries⟩)) d := by
    refine Yields.resolve c (fun rest jumps => ?_) (beginsValue_treeEvents leaf _)
    rw [treeEvents_map, List.cons_append]
    exact (h.enters hformat hnames (fun _ hf => hf) hvalues).yields hfuel rest jumps
  intro rest jumps
  rw [Context.record]
  simp only [hdraft rest jumps, bind, Except.bind, hfinish]

end ModelGraph.Document
