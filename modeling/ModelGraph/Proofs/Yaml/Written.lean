import ModelGraph.Proofs.Tree.Shape
import ModelGraph.Proofs.Yaml.Content

/-!
# The written form of a tree

What holds of every written tree, whatever stands in it: no node, entry or element begins with white
space or a comment, and all characters are printable.

- `solid_nodeText`, `solid_entriesText`, `solid_itemsText`: beginnings.
- `isAllowed_renderChars`: characters.
-/

namespace ModelGraph.Yaml

/-! ## Beginnings -/

/-- A plain scalar begins with something else than white space, whatever is written behind it. Its
first character is neither a blank nor an indicator. -/
theorem StaysPlain.solid {s : List Char} (h : StaysPlain s) (t : List Char) : Solid (s ++ t) := by
  obtain ⟨c, rest, rfl⟩ := List.exists_cons_of_ne_nil h.nonempty
  obtain ⟨hblank, hleading, -⟩ := h.first
  rw [List.cons_append, solid_cons]
  refine ⟨hblank, h.not_isBreak c List.mem_cons_self, ?_, ?_⟩
  · rintro rfl
    exact absurd hleading (by decide)
  · rintro rfl
    exact absurd (h.printable _ List.mem_cons_self) (by decide)

/-- The same for a leaf in every style. All styles but the plain one begin with a
mark of their own. -/
theorem WrittenAs.solid {indent : Nat} {s text : List Char} {style : Style}
    (h : WrittenAs indent s style text) (t : List Char) : text ≠ [] ∧ Solid (text ++ t) := by
  cases h with
  | plain hplain => exact ⟨hplain.nonempty, hplain.solid t⟩
  | single => exact ⟨List.cons_ne_nil _ _, solid_cons.mpr (by decide)⟩
  | double => exact ⟨List.cons_ne_nil _ _, solid_cons.mpr (by decide)⟩
  | literal => exact ⟨List.cons_ne_nil _ _, solid_cons.mpr (by decide)⟩

/-- What is written for a leaf begins with something else than white space. -/
theorem solid_leafText (indent : Nat) (v : Scalar) (s : List Char) :
    leafText indent v ≠ [] ∧ Solid (leafText indent v ++ s) :=
  (leafText_writtenAs indent v).solid s

/-- Only the first character decides whether white space comes first, so more text behind it does
not matter. -/
theorem solid_append {s : List Char} (hs : s ≠ []) (h : Solid s) (t : List Char) :
    Solid (s ++ t) := by
  obtain ⟨c, rest, rfl⟩ := List.exists_cons_of_ne_nil hs
  rw [List.cons_append, solid_cons]
  exact solid_cons.mp h

/-- Ending a line adds something to its end, if anything. -/
theorem exists_endLine (s : List Char) : ∃ t, endLine s = s ++ t := by
  unfold endLine
  split
  · exact ⟨[], (List.append_nil s).symm⟩
  · exact ⟨['\n'], rfl⟩

/-- A leaf with the end of its line begins as the leaf does. -/
theorem solid_endLine_leafText (indent : Nat) (v : Scalar) :
    endLine (leafText indent v) ≠ [] ∧ Solid (endLine (leafText indent v)) := by
  obtain ⟨t, ht⟩ := exists_endLine (leafText indent v)
  obtain ⟨hne, hsolid⟩ := solid_leafText indent v t
  rw [ht]
  exact ⟨by simp [hne], hsolid⟩

/-- A key begins with something else than white space, whichever way it is written. -/
theorem solid_entryText (indent : Nat) (entry : String × Tree) :
    entryText indent entry ≠ [] ∧ Solid (entryText indent entry) := by
  obtain ⟨key, value⟩ := entry
  rw [entryText]
  split
  · obtain ⟨hne, hsolid⟩ := solid_leafText indent (.text key) (':' :: valueText indent value)
    exact ⟨by simp, hsolid⟩
  · exact ⟨by simp, by simp only [List.cons_append]; rw [solid_cons]; decide⟩

/-- The entries of a map begin with a key. -/
theorem solid_entriesText (indent : Nat) (entry : String × Tree) (rest : List (String × Tree)) :
    entriesText indent (entry :: rest) ≠ [] ∧ Solid (entriesText indent (entry :: rest)) := by
  obtain ⟨hne, hsolid⟩ := solid_entryText indent entry
  cases rest with
  | nil => rw [entriesText]; exact ⟨hne, hsolid⟩
  | cons next others =>
    rw [entriesText, List.append_assoc]
    · exact ⟨by simp [hne], solid_append hne hsolid _⟩
    · exact List.cons_ne_nil _ _

/-- The elements of a sequence begin with a hyphen. -/
theorem solid_itemsText (indent : Nat) (item : Tree) (rest : List Tree) :
    itemsText indent (item :: rest) ≠ [] ∧ Solid (itemsText indent (item :: rest)) := by
  cases rest with
  | nil =>
    rw [itemsText]
    exact ⟨List.cons_ne_nil _ _, solid_cons.mpr (by decide)⟩
  | cons next others =>
    rw [itemsText]
    · simp only [List.cons_append]
      exact ⟨List.cons_ne_nil _ _, solid_cons.mpr (by decide)⟩
    · exact List.cons_ne_nil _ _

/-- A node begins with something else than white space, of whatever kind it is. The reader, which
passes over the white space in front of a token, therefore stops where the node begins. -/
theorem solid_nodeText (indent : Nat) (t : Tree) :
    nodeText indent t ≠ [] ∧ Solid (nodeText indent t) := by
  match t with
  | .scalar v => rw [nodeText]; exact solid_endLine_leafText indent v
  | .map ⟨[]⟩ => rw [nodeText]; exact ⟨List.cons_ne_nil _ _, solid_cons.mpr (by decide)⟩
  | .map ⟨entry :: rest⟩ => rw [nodeText]; exact solid_entriesText indent entry rest
  | .seq [] => rw [nodeText]; exact ⟨List.cons_ne_nil _ _, solid_cons.mpr (by decide)⟩
  | .seq (item :: rest) => rw [nodeText]; exact solid_itemsText indent item rest

/-- A value stands behind white space, so the colon in front of it ends a word and is read as an
indicator. -/
theorem endsWord_valueText (indent : Nat) (t : Tree) (s : List Char) :
    endsWord (valueText indent t ++ s) = true := by
  match t with
  | .scalar v => rw [valueText]; rfl
  | .map ⟨[]⟩ => rw [valueText]; rfl
  | .map ⟨entry :: rest⟩ => rw [valueText]; rfl
  | .seq [] => rw [valueText]; rfl
  | .seq (item :: rest) => rw [valueText]; rfl

/-! ## Characters -/

/-- What may be written as itself may be read: the printable characters are among those that a text
may contain at all. -/
theorem isAllowed_of_isPrintable {c : Char} (h : isPrintable c = true) : isAllowed c = true := by
  simp only [isPrintable, isAllowed, Bool.or_eq_true, Bool.and_eq_true, beq_iff_eq,
    decide_eq_true_eq] at h ⊢
  omega

/-- All characters of a text are printable. -/
def Printable (s : List Char) : Prop := ∀ c ∈ s, isPrintable c = true

/-- The empty text has no characters. -/
@[simp]
theorem printable_nil : Printable [] := nofun

/-- A text is printable by its characters, one by one. -/
@[simp]
theorem printable_cons {c : Char} {s : List Char} :
    Printable (c :: s) ↔ isPrintable c = true ∧ Printable s := List.forall_mem_cons

/-- Printable texts may be put together. -/
@[simp]
theorem printable_append {s t : List Char} : Printable (s ++ t) ↔ Printable s ∧ Printable t :=
  List.forall_mem_append

/-- Spaces are printable. -/
@[simp]
theorem printable_spaces (n : Nat) : Printable (spaces n) := by
  intro c hc
  rw [List.eq_of_mem_replicate hc]
  rfl

/-- A text that needs no escapes is printable. This is what the single quotes and the literal block
ask of a text. -/
theorem printable_of_needsEscapes {s : List Char} (h : needsEscapes s = false) : Printable s := by
  rw [needsEscapes, Bool.or_eq_false_iff, List.any_eq_false] at h
  intro c hc
  simpa using h.1 c hc

/-- The indentation of a line is printable, where there is one. -/
theorem printable_indentation (indent : Nat) (afterBreak : Bool) :
    Printable (if afterBreak then spaces indent else []) := by
  split
  · exact printable_spaces indent
  · exact printable_nil

/-- The inside of single quotes is printable if the text is. -/
theorem printable_singleBody (indent : Nat) (afterBreak : Bool) {s : List Char}
    (hs : Printable s) :
    Printable (singleBody indent afterBreak s) := by
  -- the indentation is written when the next character of the text comes, so the induction is for
  -- both places of a line
  induction s generalizing afterBreak with
  | nil =>
    rw [singleBody]
    exact printable_append.mpr ⟨printable_indentation indent afterBreak,
      printable_cons.mpr ⟨rfl, printable_nil⟩⟩
  | cons c rest ih =>
    obtain ⟨hc, hrest⟩ := printable_cons.mp hs
    rw [singleBody]
    split
    · exact printable_cons.mpr ⟨hc, ih true hrest⟩
    · have hquotes : Printable (if c = '\'' then ['\'', '\''] else [c]) := by
        split
        · simp [isPrintable]
        · simpa using hc
      exact printable_append.mpr ⟨printable_append.mpr
        ⟨printable_indentation indent afterBreak, hquotes⟩, ih false hrest⟩

/-- The lines of a literal block are printable if the text is. -/
theorem printable_literalBody (indent : Nat) (afterBreak : Bool) {s : List Char}
    (hs : Printable s) :
    Printable (literalBody indent afterBreak s) := by
  induction s generalizing afterBreak with
  | nil => exact printable_nil
  | cons c rest ih =>
    obtain ⟨hc, hrest⟩ := printable_cons.mp hs
    rw [literalBody]
    split
    · exact printable_cons.mpr ⟨hc, ih true hrest⟩
    · exact printable_append.mpr ⟨printable_indentation indent afterBreak,
        printable_cons.mpr ⟨hc, ih false hrest⟩⟩

/-- So is the block with its header. -/
theorem printable_literalText (indent : Nat) {s : List Char} (hs : Printable s) :
    Printable (literalText indent s) := by
  have hchomping : Printable (chompingText s) := by
    unfold chompingText
    repeat' split
    all_goals simp [isPrintable]
  have hbody := printable_literalBody indent true hs
  rw [literalText]
  split <;> simp [hchomping, hbody] <;> decide

/-- A leaf is written in printable characters, whatever its text contains. What cannot be shown is
written as a code in double quotes. -/
theorem WrittenAs.printable {indent : Nat} {s text : List Char} {style : Style}
    (h : WrittenAs indent s style text) : Printable text := by
  cases h with
  | plain hplain => exact hplain.printable
  | single hsingle =>
    rw [allowsSingle, Bool.and_eq_true, Bool.not_eq_true'] at hsingle
    rw [printable_cons]
    exact ⟨rfl, printable_singleBody indent false (printable_of_needsEscapes hsingle.1)⟩
  | double =>
    -- what is not printable has been escaped
    have hescaped : Printable (s.flatMap escaped) := by
      intro c hc
      obtain ⟨d, -, hd⟩ := List.mem_flatMap.mp hc
      exact ((escaped_chars d).1 c hd).1
    simp [hescaped, isPrintable]
  | literal hblock =>
    rw [allowsBlock, Bool.and_eq_true, Bool.and_eq_true, Bool.not_eq_true',
      Bool.not_eq_true'] at hblock
    exact printable_literalText indent (printable_of_needsEscapes hblock.1.2)

/-- A written leaf is printable. -/
theorem printable_leafText (indent : Nat) (v : Scalar) : Printable (leafText indent v) :=
  (leafText_writtenAs indent v).printable

/-- A written leaf with the end of its line is printable. -/
theorem printable_endLine_leafText (indent : Nat) (v : Scalar) :
    Printable (endLine (leafText indent v)) := by
  unfold endLine
  split
  · exact printable_leafText indent v
  · exact printable_append.mpr ⟨printable_leafText indent v,
      printable_cons.mpr ⟨rfl, printable_nil⟩⟩

/-- Elements are printable if each of them is. -/
theorem printable_itemsText {items : List Tree} (h : ∀ t ∈ items, ∀ i, Printable (nodeText i t))
    (indent : Nat) : Printable (itemsText indent items) := by
  induction items with
  | nil => rw [itemsText]; exact printable_nil
  | cons item rest ih =>
    obtain ⟨hitem, hrest⟩ := List.forall_mem_cons.mp h
    -- only elements with another one behind them are followed by an indentation
    cases rest with
    | nil => rw [itemsText]; simp [hitem, isPrintable]
    | cons next others =>
      rw [itemsText]
      · simp [hitem, ih hrest, isPrintable]
      · exact List.cons_ne_nil _ _

/-- An entry is printable if its value is, in either of the places that a value may have. -/
theorem printable_entryText {entry : String × Tree} (hnode : ∀ i, Printable (nodeText i entry.2))
    (hvalue : ∀ i, Printable (valueText i entry.2)) (indent : Nat) :
    Printable (entryText indent entry) := by
  obtain ⟨key, value⟩ := entry
  have hkey : ∀ i, Printable (scalarText i key.toList) := fun i => printable_leafText i (.text key)
  have hkeyLine : ∀ i, Printable (endLine (scalarText i key.toList)) := fun i =>
    printable_endLine_leafText i (.text key)
  rw [entryText]
  split
  · simp [hkey, hvalue, isPrintable]
  · simp [hkeyLine, hnode, isPrintable]

/-- Entries are printable if all their values are. -/
theorem printable_entriesText {entries : List (String × Tree)}
    (h : ∀ e ∈ entries, ∀ i, Printable (nodeText i e.2) ∧ Printable (valueText i e.2))
    (indent : Nat) :
    Printable (entriesText indent entries) := by
  induction entries with
  | nil => rw [entriesText]; exact printable_nil
  | cons entry rest ih =>
    obtain ⟨hentry, hrest⟩ := List.forall_mem_cons.mp h
    have hfirst := printable_entryText (fun i => (hentry i).1) (fun i => (hentry i).2) indent
    -- only entries with another one behind them are followed by an indentation
    cases rest with
    | nil => rw [entriesText]; exact hfirst
    | cons next others =>
      rw [entriesText]
      · simp [hfirst, ih hrest]
      · exact List.cons_ne_nil _ _

/-- **Every written tree is printable**, as a node and as the value of a key,
with any indentation. -/
theorem printable_nodeText_and_valueText (t : Tree) :
    ∀ i, Printable (nodeText i t) ∧ Printable (valueText i t) := by
  -- a container without children has a form of its own, so lists are taken apart once more below
  induction t using Tree.induct with
  | scalar v =>
    intro i
    rw [nodeText, valueText]
    simp [printable_endLine_leafText, isPrintable]
  | seq items ih =>
    intro i
    have hitems := printable_itemsText fun t ht i => (ih t ht i).1
    cases items with
    | nil => rw [nodeText, valueText]; simp [isPrintable]
    | cons item rest => rw [nodeText, valueText]; simp [hitems, isPrintable]
  | map entries ih =>
    intro i
    have hentries := printable_entriesText ih
    cases entries with
    | nil => rw [nodeText, valueText]; simp [isPrintable]
    | cons entry rest => rw [nodeText, valueText]; simp [hentries, isPrintable]

/-- A document contains no character that a text may not contain. -/
theorem isAllowed_renderChars (t : Tree) : (renderChars t).all isAllowed = true := by
  have hprintable : Printable (renderChars t) := by
    unfold renderChars
    split
    · exact printable_endLine_leafText 2 _
    · exact (printable_nodeText_and_valueText t 0).1
  exact List.all_eq_true.mpr fun c hc => isAllowed_of_isPrintable (hprintable c hc)

end ModelGraph.Yaml
