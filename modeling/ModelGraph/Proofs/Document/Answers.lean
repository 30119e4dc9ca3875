import ModelGraph.Proofs.Document.Reading
import ModelGraph.Proofs.Except
import ModelGraph.Proofs.Tree.Storable

/-!
# What is read

Trees that are read are no worse than trees that are written: whatever a document looks like, the
keys of each map in the answer are distinct, its leaves are those that the format gives, and it is
no higher than the levels that may be opened. So what has been read can be kept in a text and read
again.

- `Answers`: all that a reader answers has a property.
- `Values`: what is asked of the leaves of a format.
- `tree_answers`: the answers of the reader of trees.
-/

namespace ModelGraph.Document

variable {σ α β : Type}

/-! ## Answers of readers -/

/-- All that the reader answers has the property, whatever it is given to read. Nothing is said of
where it fails. -/
def Answers (read : Reader σ α) (P : α → Prop) : Prop :=
  ∀ s a s', read s = .ok (a, s') → P a

variable {P : α → Prop}

/-- What a reference leads to is read as if it stood there. -/
theorem Answers.resolve {read : Reader σ α} (c : Context σ) (h : Answers read P) :
    Answers (c.resolve read) P := by
  intro s a s' hread
  unfold Context.resolve at hread
  split at hread
  · obtain ⟨target, -, hread⟩ := bind_eq_ok.mp hread
    obtain ⟨⟨value, after⟩, hvalue, hread⟩ := bind_eq_ok.mp hread
    cases hread
    exact h _ _ _ hvalue
  · exact h _ _ _ hread

/-- If every element has a property, all of them have it. -/
theorem answers_readElements {element : Reader σ α} (h : Answers element P) (fuel : Nat) :
    Answers (readElements element fuel) fun as => ∀ a ∈ as, P a := by
  induction fuel with
  | zero => exact fun _ _ _ hread => nomatch hread
  | succ fuel ih =>
    intro s as s' hread
    unfold readElements at hread
    -- the end of the sequence, the end of the document, or one more element
    split at hread
    · cases hread
      exact fun _ ha => nomatch ha
    · cases hread
    · obtain ⟨⟨first, s₁⟩, hfirst, hread⟩ := bind_eq_ok.mp hread
      obtain ⟨⟨others, s₂⟩, hothers, hread⟩ := bind_eq_ok.mp hread
      cases hread
      exact List.forall_mem_cons.mpr ⟨h _ _ _ hfirst, ih _ _ _ hothers⟩

/-- What every entry keeps holds after all of them, if it holds of what they begin with. -/
theorem answers_readEntries {key : Reader σ β} {entry : β → α → Reader σ α}
    (h : ∀ k a, P a → Answers (entry k a) P) (fuel : Nat) {sofar : α} (hsofar : P sofar) :
    Answers (readEntries key entry fuel sofar) P := by
  induction fuel generalizing sofar with
  | zero => exact fun _ _ _ hread => nomatch hread
  | succ fuel ih =>
    intro s a s' hread
    unfold readEntries at hread
    -- the end of the map, the end of the document, or one more entry
    split at hread
    · cases hread
      exact hsofar
    · cases hread
    · obtain ⟨⟨k, s₁⟩, -, hread⟩ := bind_eq_ok.mp hread
      obtain ⟨⟨next, s₂⟩, hnext, hread⟩ := bind_eq_ok.mp hread
      exact ih (h k sofar hsofar _ _ _ hnext) _ _ _ hread

/-- What is read from a whole document has the property as well. -/
theorem Answers.of_run {c : Context σ} {read : Nat → Reader σ α} {a : α}
    (h : Answers (read c.format.levels) P) (hrun : c.run read = .ok a) : P a := by
  obtain ⟨⟨value, s⟩, hvalue, hrun⟩ := bind_eq_ok.mp hrun
  dsimp only at hrun
  split at hrun
  · cases hrun
  · cases hrun
    exact h _ _ _ hvalue

/-! ## Trees -/

/-- The leaves of a format have a property, and so has the text that stands for nothing. -/
structure Values (f : Format σ) (ok : Scalar → Prop) : Prop where
  scalar : ∀ value leaf, f.scalar value = some leaf → ok leaf
  blank : ok (.text "")

variable {c : Context σ} {ok : Scalar → Prop} {levels : Nat}

/-- An entry that is inserted keeps a map one that can be kept in a text. -/
theorem answers_insertInto {child : Reader σ Tree} (h : Answers child (Tree.Fits ok levels))
    (key : Tree)
    {sofar : OrderedMap Tree} (hsofar : Tree.Fits ok (levels + 1) (.map sofar)) :
    Answers (insertInto child key sofar) fun m => Tree.Fits ok (levels + 1) (.map m) := by
  intro s m s' hread
  obtain ⟨⟨value, s₁⟩, hvalue, hread⟩ := bind_eq_ok.mp hread
  dsimp only at hread
  split at hread
  · cases hread
    exact hsofar.insert _ (h _ _ _ hvalue)
  · cases hread

/-- A tree from the trees one level down, if there is such a level. Its leaves are values that the
format gives, and no key of its maps comes twice. -/
theorem answers_treeNode (hvalues : Values c.format ok) {inner : Option (Reader σ Tree)}
    (h : ∀ child ∈ inner, ∃ below, levels = below + 1 ∧ Answers child (Tree.Fits ok below)) :
    Answers (c.treeNode inner) (Tree.Fits ok levels) := by
  intro s t s' hread
  unfold Context.treeNode at hread
  split at hread
  · -- a leaf
    rename_i value rest _
    split at hread
    · rename_i leaf hleaf
      cases hread
      exact Tree.fits_scalar (hvalues.scalar value leaf hleaf)
    · cases hread
  · cases hread
    -- a value that stands for nothing is read as the empty text
    exact Tree.fits_scalar hvalues.blank
  · -- a sequence
    obtain ⟨below, rfl, hchild⟩ := h _ rfl
    obtain ⟨⟨items, s₁⟩, hitems, hread⟩ := bind_eq_ok.mp hread
    cases hread
    exact Tree.fits_seq.mpr (answers_readElements hchild c.fuel _ _ _ hitems)
  · -- a map, which begins without entries
    obtain ⟨below, rfl, hchild⟩ := h _ rfl
    obtain ⟨⟨fields, s₁⟩, hfields, hread⟩ := bind_eq_ok.mp hread
    cases hread
    exact answers_readEntries (fun key sofar => answers_insertInto hchild key) c.fuel
      Tree.fits_emptyMap _ _ _ hfields
  · cases hread

/-- **What is read as a tree can be kept in a text**, and it is no higher than the levels that may
be opened. -/
theorem tree_answers (hvalues : Values c.format ok) (levels : Nat) :
    Answers (c.tree levels) (Tree.Fits ok levels) := by
  induction levels with
  | zero =>
    -- without a level left no container can be opened
    have hnode : Answers (c.treeNode none) (Tree.Fits ok 0) := answers_treeNode hvalues nofun
    exact hnode.resolve c
  | succ levels ih =>
    refine (answers_treeNode hvalues fun child hchild => ?_).resolve c
    cases hchild
    exact ⟨levels, rfl, ih⟩

end ModelGraph.Document
