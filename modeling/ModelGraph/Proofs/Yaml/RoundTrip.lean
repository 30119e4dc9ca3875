import ModelGraph.Proofs.Yaml.Events

/-!
# YAML texts of trees

Reading what has been written: the lexing, the grammar, the leaves and the reader of trees put
together.

- `readTree_render_eq`: reading a written text is reading the events of its tree.
- `readTree_render`: a tree is read back from its text.
-/

namespace ModelGraph.Yaml

open ModelGraph.Document (Context Faithful restores_tree treeEvents)

/-- What is written comes back, whether it is read as a tree or where its kind is known. -/
theorem faithful : Faithful format writtenLeaf Readable where
  key _ := trivial
  scalar _ h := scalar?_writtenLeaf h
  text _ := congrArg some String.ofList_toList
  integer := integer?_writtenLeaf
  float _ h := float?_writtenLeaf h
  bool := bool?_writtenLeaf
  presence _ h := presence_writtenLeaf h

/-- Reading a written text is reading the events of the tree, also where that fails. -/
theorem readTree_render_eq (t : Tree) :
    readTree (render t) =
      let c : Context Leaf := ⟨format, ⟨treeEvents writtenLeaf t, [], false⟩⟩
      c.run c.tree := by
  rw [readTree, context, source_render]

/-- A tree that can be kept in a text is read back from its text. -/
theorem readTree_of_storable {t : Tree} (h : t.Storable Readable) (hdepth : t.height ≤ 128) :
    readTree (render t) = .ok t :=
  (restores_tree faithful t).run (c := context (render t)) (source_render t) h hdepth

/-- **YAML texts lose nothing.** A tree whose maps have no repeated keys is read back from its
text as it was, with the kinds of its leaves, every character of its texts and keys, and all
orders. Numbers must be ones that can be written (`Readable`), and containers may nest as deep as
they can be read. -/
theorem readTree_render {t : Tree} (hdistinct : t.DistinctKeys) (hleaves : t.LeavesAll Readable)
    (hdepth : t.height ≤ 128) : readTree (render t) = .ok t :=
  readTree_of_storable ⟨hleaves, hdistinct⟩ hdepth

/-- Texts that look like something else, in every style, next to every other kind of leaf. -/
def mixedTree : Tree :=
  .map ⟨[("", .text "null"), ("~", .text ""), ("two\nlines", .text "kept\n\n"),
    ("- yes: #", .seq [.text " 12", .text "0x1f", .text "\x07", .text "it's: so",
      .text "\u2028end"]),
    ("numbers", .seq [.scalar (.int (-5)), .scalar (.wide (UInt64.ofNat 9223372036854775808)),
      .scalar (.float (.finite false 7205759403792794 (-56))), .scalar (.float (.infinite true)),
      .scalar (.bool true)]),
    ("nothing", .seq [.seq [], .map ⟨[]⟩, .seq [.map ⟨[("\t", .seq [])]⟩]])]⟩

/-- The tree meets all conditions, so it is read back. -/
theorem mixedTree_read_back : mixedTree.DistinctKeys ∧ mixedTree.LeavesAll Readable ∧
    mixedTree.height ≤ 128 ∧ readTree (render mixedTree) = .ok mixedTree := by
  have hdistinct : mixedTree.DistinctKeys := by simp [mixedTree, Tree.text]
  have hfloat : ReadsBack (.finite false 7205759403792794 (-56)) := by
    unfold ReadsBack
    decide +kernel
  have hleaves : mixedTree.LeavesAll Readable := by
    simp [mixedTree, Tree.text, Readable, Binary64.isFinite, hfloat]
  have hdepth : mixedTree.height ≤ 128 := by decide +kernel
  exact ⟨hdistinct, hleaves, hdepth, readTree_render hdistinct hleaves hdepth⟩

end ModelGraph.Yaml
