import ModelGraph.Proofs.Document.Reading
import ModelGraph.Proofs.Yaml.Tokens
import ModelGraph.Yaml.Reader

/-!
# Events of a document

The tokens of a written tree are parsed into the events of the tree: no anchors, no tags, and
nothing behind the tree.

- `Parser.runOn`: a part of the grammar run on a state, with one lemma for each of its steps.
- `ofTokens_nodeTokens`: the events of a document.
- `source_render`: a written text as a source of events.
-/

namespace ModelGraph.Yaml

open ModelGraph.Document (treeEvents entryEvents Source treeEvents_scalar treeEvents_seq
  treeEvents_map)

/-! ## Steps of the grammar -/

/-- A part of the grammar run on a state. -/
def Parser.runOn {α : Type} (p : Parser α) (s : Parse) : Except Unit α × Parse := p.run.run s

/-- A part of the grammar that succeeds leaves its state to the part behind it. Together with the
equations below it takes the place of unfolding the grammar. -/
theorem Parser.runOn_bind {α β : Type} {p : Parser α} {f : α → Parser β} {s s' : Parse} {a : α}
    (h : p.runOn s = (.ok a, s')) : (p >>= f).runOn s = (f a).runOn s' := by
  have hrun : StateT.run (ExceptT.run p) s = (.ok a, s') := h
  show StateT.run (ExceptT.run (p >>= f)) s = _
  rw [ExceptT.run_bind, StateT.run_bind, hrun]
  rfl

section

variable {fuel : Nat} {indentless : Bool} {handles : Handles} {events : List Event}
    {rest : List Token}

/-- A node that is a scalar, without an anchor and a tag. -/
theorem node_scalar (style : Style) (text : String) :
    (node (fuel + 1) true indentless).runOn ⟨.scalar style text :: rest, handles, events⟩ =
      (.ok (), ⟨rest, handles, .scalar noProperties style text :: events⟩) := by
  cases indentless <;> rfl

/-- A node that is a flow sequence without elements. -/
theorem node_emptySeq :
    (node (fuel + 2) true indentless).runOn
        ⟨.flowSequenceStart :: .flowSequenceEnd :: rest, handles, events⟩ =
      (.ok (), ⟨rest, handles, .closeSeq :: .openSeq noProperties :: events⟩) := by
  cases indentless <;> rfl

/-- A node that is a flow mapping without entries. -/
theorem node_emptyMap :
    (node (fuel + 2) true indentless).runOn
        ⟨.flowMappingStart :: .flowMappingEnd :: rest, handles, events⟩ =
      (.ok (), ⟨rest, handles, .closeMap :: .openMap noProperties :: events⟩) := by
  cases indentless <;> rfl

/-- A node that begins a block sequence goes on with its elements. -/
theorem node_blockSequence :
    (node (fuel + 1) true indentless).runOn ⟨.blockSequenceStart :: rest, handles, events⟩ =
      (blockEntries fuel).runOn ⟨rest, handles, .openSeq noProperties :: events⟩ := by
  cases indentless <;> rfl

/-- A node that begins a block mapping goes on with its entries. -/
theorem node_blockMapping :
    (node (fuel + 1) true indentless).runOn ⟨.blockMappingStart :: rest, handles, events⟩ =
      (blockPairs fuel).runOn ⟨rest, handles, .openMap noProperties :: events⟩ := by
  cases indentless <;> rfl

/-- A sequence that is not indented begins with its first element. No token of its own opens it, and
the element is left to be read. -/
theorem node_blockEntry :
    (node (fuel + 1) true true).runOn ⟨.blockEntry :: rest, handles, events⟩ =
      (indentlessEntries fuel).runOn
        ⟨.blockEntry :: rest, handles, .openSeq noProperties :: events⟩ := rfl

/-- One element of an indented sequence, which is not empty by the token behind the hyphen. -/
theorem blockEntries_entry {t : Token} (h : isOneOf t [.blockEntry, .blockEnd] = false) :
    (blockEntries (fuel + 1)).runOn ⟨.blockEntry :: t :: rest, handles, events⟩ =
      (node fuel true false >>= fun _ => blockEntries fuel).runOn ⟨t :: rest, handles, events⟩ := by
  cases t <;> first | rfl | exact nomatch h

/-- The end of an indented sequence. -/
theorem blockEntries_end :
    (blockEntries (fuel + 1)).runOn ⟨.blockEnd :: rest, handles, events⟩ =
      (.ok (), ⟨rest, handles, .closeSeq :: events⟩) := rfl

/-- One element of a sequence that is not indented. -/
theorem indentlessEntries_entry {t : Token}
    (h : isOneOf t [.blockEntry, .key, .value, .blockEnd] = false) :
    (indentlessEntries (fuel + 1)).runOn ⟨.blockEntry :: t :: rest, handles, events⟩ =
      (node fuel true false >>= fun _ => indentlessEntries fuel).runOn
        ⟨t :: rest, handles, events⟩ := by
  cases t <;> first | rfl | exact nomatch h

/-- The end of a sequence that is not indented is any token that is no hyphen. The token is left to
be read, as it belongs to the map around the sequence. -/
theorem indentlessEntries_end {t : Token} (h : t ≠ .blockEntry) :
    (indentlessEntries (fuel + 1)).runOn ⟨t :: rest, handles, events⟩ =
      (.ok (), ⟨t :: rest, handles, .closeSeq :: events⟩) := by
  cases t <;> first | rfl | exact absurd rfl h

/-- The end of a mapping. -/
theorem blockPairs_end :
    (blockPairs (fuel + 1)).runOn ⟨.blockEnd :: rest, handles, events⟩ =
      (.ok (), ⟨rest, handles, .closeMap :: events⟩) := rfl

/-- A document that is not empty is a node. -/
theorem document_node {t : Token} (h : endsContent t = false) :
    (document fuel).runOn ⟨t :: rest, handles, events⟩ =
      (node fuel true false).runOn ⟨t :: rest, handles, events⟩ := by
  cases t <;> first | rfl | exact nomatch h

/-- An entry with a leaf as its key and a value that is written out. -/
theorem blockPairs_entry {style : Style} {text : String} {t : Token}
    (h : isOneOf t [.key, .value, .blockEnd] = false) :
    (blockPairs (fuel + 2)).runOn
        ⟨.key :: .scalar style text :: .value :: t :: rest, handles, events⟩ =
      (node (fuel + 1) true true >>= fun _ => blockPairs (fuel + 1)).runOn
        ⟨t :: rest, handles, .scalar noProperties style text :: events⟩ := by
  cases t <;> first | rfl | exact nomatch h

end

/-! ## Events of trees -/

/-- The event of the grammar for a step of a document, without an anchor. -/
def bareEvent : Document.Event Leaf → Event
  | .leaf l => .scalar ⟨none, l.tag⟩ l.style l.text
  | .openSeq _ => .openSeq noProperties
  | .closeSeq => .closeSeq
  | .openMap _ => .openMap noProperties
  | .closeMap => .closeMap
  | .reference _ => .absent
  | .absent => .absent

/-- The events of the grammar for a tree. -/
def nodeEvents (t : Tree) : List Event := (treeEvents writtenLeaf t).map bareEvent

/-- The event of a leaf. -/
def leafEvent (v : Scalar) : Event :=
  .scalar noProperties (leafStyle v) (String.ofList (leafChars v))

/-- A leaf is one event. -/
theorem nodeEvents_scalar (v : Scalar) : nodeEvents (.scalar v) = [leafEvent v] := by
  rw [nodeEvents, treeEvents_scalar]
  rfl

/-- A sequence is the events of its elements between two of its own. -/
theorem nodeEvents_seq (items : List Tree) :
    nodeEvents (.seq items) = .openSeq noProperties ::
      (items.flatMap nodeEvents ++ [.closeSeq]) := by
  rw [nodeEvents, treeEvents_seq, List.map_cons, List.map_append, List.map_flatMap]
  rfl

/-- A map is the events of its entries between two of its own. An entry is the event of its key,
which is a leaf, and the events of its value. -/
theorem nodeEvents_map (entries : List (String × Tree)) :
    nodeEvents (.map ⟨entries⟩) = .openMap noProperties ::
      (entries.flatMap (fun e => leafEvent (.text e.1) :: nodeEvents e.2) ++ [.closeMap]) := by
  rw [nodeEvents, treeEvents_map, List.map_cons, List.map_append, List.map_flatMap]
  rfl

/-! ## Subtrees -/

/-- The tokens of a node are parsed into its events, whatever follows. -/
def NodeParses (t : Tree) : Prop :=
  ∀ (fuel : Nat) (indentless : Bool) (rest : List Token) (handles : Handles) (events : List Event),
    (nodeTokens t).length ≤ fuel →
    (node fuel true indentless).runOn ⟨nodeTokens t ++ rest, handles, events⟩ =
      (.ok (), ⟨rest, handles, (nodeEvents t).reverse ++ events⟩)

/-- The tokens of the value of a key are parsed into its events, unless an element of a sequence
follows. -/
def ValueParses (t : Tree) : Prop :=
  ∀ (fuel : Nat) (next : Token) (rest : List Token) (handles : Handles) (events : List Event),
    (valueTokens t).length + 2 ≤ fuel → next ≠ .blockEntry →
    (node fuel true true).runOn ⟨valueTokens t ++ next :: rest, handles, events⟩ =
      (.ok (), ⟨next :: rest, handles, (nodeEvents t).reverse ++ events⟩)

/-- A node begins like nothing that stands for an empty one. -/
theorem nodeTokens_first (t : Tree) :
    ∃ first others, nodeTokens t = first :: others ∧ endsContent first = false ∧
      isOneOf first [.blockEntry, .key, .value, .blockEnd] = false := by
  match t with
  | .scalar v => exact ⟨_, _, by rw [nodeTokens], rfl, rfl⟩
  | .map ⟨[]⟩ => exact ⟨_, _, by rw [nodeTokens], rfl, rfl⟩
  | .map ⟨entry :: rest⟩ => exact ⟨_, _, by rw [nodeTokens, List.cons_append], rfl, rfl⟩
  | .seq [] => exact ⟨_, _, by rw [nodeTokens], rfl, rfl⟩
  | .seq (item :: rest) => exact ⟨_, _, by rw [nodeTokens, List.cons_append], rfl, rfl⟩

/-- Only a sequence with elements has other tokens behind a key than as a node. -/
theorem valueTokens_eq_or (t : Tree) :
    valueTokens t = nodeTokens t ∨ ∃ item rest, t = .seq (item :: rest) := by
  match t with
  | .scalar v => exact .inl (by rw [valueTokens, nodeTokens])
  | .map ⟨[]⟩ => exact .inl (by rw [valueTokens, nodeTokens])
  | .map ⟨entry :: rest⟩ => exact .inl (by rw [valueTokens, nodeTokens])
  | .seq [] => exact .inl (by rw [valueTokens, nodeTokens])
  | .seq (item :: rest) => exact .inr ⟨item, rest, rfl⟩

/-- What is none of some tokens is none of fewer. -/
theorem isOneOf_subset {t : Token} {ts us : List Token} (h : isOneOf t us = false)
    (hsub : ts ⊆ us) :
    isOneOf t ts = false := by
  simp only [isOneOf, List.contains_eq_mem, decide_eq_false_iff_not] at h ⊢
  exact fun hmem => h (hsub hmem)

/-- The value of a key begins like a node or like an element of a sequence. -/
theorem keyedTokens_first (key : String) (t : Tree) :
    ∃ first others, (if isSimpleKey key then valueTokens t else nodeTokens t) = first :: others ∧
      isOneOf first [.key, .value, .blockEnd] = false := by
  obtain ⟨first, others, htokens, -, hfirst⟩ := nodeTokens_first t
  have hnode : isOneOf first [.key, .value, .blockEnd] = false := isOneOf_subset hfirst (by simp)
  split
  · rcases valueTokens_eq_or t with heq | ⟨item, rest, rfl⟩
    · exact ⟨first, others, heq.trans htokens, hnode⟩
    · exact ⟨_, _, by rw [valueTokens, itemsTokens, List.cons_append], rfl⟩
  · exact ⟨first, others, htokens, hnode⟩

section

variable {fuel : Nat} {handles : Handles} {events : List Event} {rest : List Token}

/-- Elements of an indented sequence. By induction on the elements, each of which is a node of its
own behind its dash. -/
theorem blockEntries_items {items : List Tree} (h : ∀ t ∈ items, NodeParses t)
    (hfuel : (itemsTokens items).length < fuel) :
    (blockEntries fuel).runOn ⟨itemsTokens items ++ .blockEnd :: rest, handles, events⟩ =
      (.ok (), ⟨rest, handles, .closeSeq :: ((items.flatMap nodeEvents).reverse ++ events)⟩) := by
  induction items generalizing fuel events with
  | nil =>
    obtain ⟨fuel, rfl⟩ := Nat.exists_eq_add_one_of_ne_zero (Nat.ne_of_gt (Nat.zero_lt_of_lt hfuel))
    rw [itemsTokens]
    exact blockEntries_end
  | cons item others ih =>
    obtain ⟨fuel, rfl⟩ := Nat.exists_eq_add_one_of_ne_zero (Nat.ne_of_gt (Nat.zero_lt_of_lt hfuel))
    obtain ⟨hitem, hothers⟩ := List.forall_mem_cons.mp h
    obtain ⟨first, tail, htokens, -, hfirst⟩ := nodeTokens_first item
    rw [itemsTokens, List.length_append, List.length_cons] at hfuel
    -- each element takes one unit of fuel, and leaves enough for the others
    have hnode :=
      hitem fuel false (itemsTokens others ++ .blockEnd :: rest) handles events (by omega)
    rw [itemsTokens, List.append_assoc, List.cons_append, htokens, List.cons_append,
      blockEntries_entry (isOneOf_subset hfirst (by simp)), ← List.cons_append, ← htokens,
      Parser.runOn_bind hnode, ih hothers (by omega)]
    simp

/-- Elements of a sequence that is not indented. No token marks its end: it ends with the first
token that is no dash. -/
theorem indentlessEntries_items {items : List Tree} (h : ∀ t ∈ items, NodeParses t) {next : Token}
    (hnext : next ≠ .blockEntry) (hfuel : (itemsTokens items).length < fuel) :
    (indentlessEntries fuel).runOn ⟨itemsTokens items ++ next :: rest, handles, events⟩ =
      (.ok (), ⟨next :: rest, handles, .closeSeq ::
        ((items.flatMap nodeEvents).reverse ++ events)⟩) := by
  induction items generalizing fuel events with
  | nil =>
    obtain ⟨fuel, rfl⟩ := Nat.exists_eq_add_one_of_ne_zero (Nat.ne_of_gt (Nat.zero_lt_of_lt hfuel))
    rw [itemsTokens]
    exact indentlessEntries_end hnext
  | cons item others ih =>
    obtain ⟨fuel, rfl⟩ := Nat.exists_eq_add_one_of_ne_zero (Nat.ne_of_gt (Nat.zero_lt_of_lt hfuel))
    obtain ⟨hitem, hothers⟩ := List.forall_mem_cons.mp h
    obtain ⟨first, tail, htokens, -, hfirst⟩ := nodeTokens_first item
    rw [itemsTokens, List.length_append, List.length_cons] at hfuel
    -- as in an indented sequence, but the token that ends the sequence is not taken
    have hnode := hitem fuel false (itemsTokens others ++ next :: rest) handles events (by omega)
    rw [itemsTokens, List.append_assoc, List.cons_append, htokens, List.cons_append,
      indentlessEntries_entry hfirst, ← List.cons_append, ← htokens,
      Parser.runOn_bind hnode, ih hothers (by omega)]
    simp

/-- The value of a key of either kind. -/
theorem node_keyedTokens {key : String} {t : Tree} (hnode : NodeParses t) (hvalue : ValueParses t)
    {next : Token} (hnext : next ≠ .blockEntry)
    (hfuel : (if isSimpleKey key then valueTokens t else nodeTokens t).length + 2 ≤ fuel) :
    (node fuel true true).runOn
        ⟨(if isSimpleKey key then valueTokens t else nodeTokens t) ++ next :: rest, handles,
          events⟩ =
      (.ok (), ⟨next :: rest, handles, (nodeEvents t).reverse ++ events⟩) := by
  -- a simple key has its value behind it, and a long one stands alone
  split at hfuel
  · rw [if_pos ‹_›]
    exact hvalue fuel next rest handles events hfuel hnext
  · rw [if_neg ‹_›]
    exact hnode fuel true (next :: rest) handles events (by omega)

/-- Entries of a map. -/
theorem blockPairs_entries {entries : List (String × Tree)}
    (h : ∀ e ∈ entries, NodeParses e.2 ∧ ValueParses e.2)
    (hfuel : (entriesTokens entries).length < fuel) :
    (blockPairs fuel).runOn ⟨entriesTokens entries ++ .blockEnd :: rest, handles, events⟩ =
      (.ok (), ⟨rest, handles, .closeMap ::
        ((entries.flatMap fun e => leafEvent (.text e.1) :: nodeEvents e.2).reverse ++
          events)⟩) := by
  induction entries generalizing fuel events with
  | nil =>
    obtain ⟨fuel, rfl⟩ := Nat.exists_eq_add_one_of_ne_zero (Nat.ne_of_gt (Nat.zero_lt_of_lt hfuel))
    rw [entriesTokens]
    exact blockPairs_end
  | cons entry others ih =>
    obtain ⟨key, value⟩ := entry
    obtain ⟨⟨hnode, hvalue⟩, hothers⟩ := List.forall_mem_cons.mp h
    obtain ⟨first, tail, htokens, hfirst⟩ := keyedTokens_first key value
    -- what follows the value is another key or the end of the map
    obtain ⟨next, after, hafter, hnext⟩ : ∃ next after,
        entriesTokens others ++ .blockEnd :: rest = next :: after ∧ next ≠ .blockEntry := by
      cases others with
      | nil => exact ⟨_, _, by rw [entriesTokens]; rfl, by decide⟩
      | cons e es => exact ⟨_, _, by rw [entriesTokens]; rfl, by decide⟩
    rw [entriesTokens] at hfuel
    simp only [List.length_append, List.length_cons] at hfuel
    obtain ⟨fuel, rfl⟩ : ∃ n, fuel = n + 2 := ⟨fuel - 2, by omega⟩
    have hparses : (node (fuel + 1) true true).runOn
        ⟨first :: (tail ++ (entriesTokens others ++ .blockEnd :: rest)), handles,
          leafEvent (.text key) :: events⟩ =
        (.ok (), ⟨entriesTokens others ++ .blockEnd :: rest, handles,
          (nodeEvents value).reverse ++ leafEvent (.text key) :: events⟩) := by
      rw [hafter, ← List.cons_append, ← htokens]
      exact node_keyedTokens hnode hvalue hnext (by simp only; omega)
    rw [entriesTokens, htokens]
    simp only [List.cons_append, List.append_assoc]
    rw [leafToken, blockPairs_entry hfirst]
    show (node (fuel + 1) true true >>= fun _ => blockPairs (fuel + 1)).runOn
      ⟨_, handles, leafEvent (.text key) :: events⟩ = _
    rw [Parser.runOn_bind hparses, ih hothers (by omega)]
    simp

end

/-- A leaf is parsed in one step. -/
theorem nodeParses_scalar (v : Scalar) : NodeParses (.scalar v) := by
  intro fuel indentless rest handles events hfuel
  rw [nodeTokens, List.length_singleton] at hfuel
  obtain ⟨fuel, rfl⟩ := Nat.exists_eq_add_one_of_ne_zero (Nat.ne_of_gt hfuel)
  rw [nodeTokens, nodeEvents_scalar]
  exact node_scalar _ _

/-- A sequence is parsed if its elements are. -/
theorem nodeParses_seq {items : List Tree} (h : ∀ t ∈ items, NodeParses t) :
    NodeParses (.seq items) := by
  intro fuel indentless rest handles events hfuel
  cases items with
  | nil =>
    rw [nodeTokens, List.length_cons, List.length_singleton] at hfuel
    obtain ⟨fuel, rfl⟩ := Nat.exists_eq_add_of_le' hfuel
    rw [nodeTokens, nodeEvents_seq]
    exact node_emptySeq
  | cons item others =>
    rw [nodeTokens, List.length_append, List.length_cons, List.length_singleton] at hfuel
    obtain ⟨fuel, rfl⟩ := Nat.exists_eq_add_of_le' (Nat.le_trans (Nat.le_add_left 1 _) hfuel)
    rw [nodeTokens, nodeEvents_seq, List.cons_append, List.cons_append, node_blockSequence,
      List.append_assoc, List.singleton_append, blockEntries_items h (by omega)]
    simp

/-- A mapping is parsed if its values are, in either place: the value of a key that is not simple is
written as a node. -/
theorem nodeParses_map {entries : List (String × Tree)}
    (h : ∀ entry ∈ entries, NodeParses entry.2 ∧ ValueParses entry.2) :
    NodeParses (.map ⟨entries⟩) := by
  intro fuel indentless rest handles events hfuel
  cases entries with
  | nil =>
    rw [nodeTokens, List.length_cons, List.length_singleton] at hfuel
    obtain ⟨fuel, rfl⟩ := Nat.exists_eq_add_of_le' hfuel
    rw [nodeTokens, nodeEvents_map]
    exact node_emptyMap
  | cons entry others =>
    rw [nodeTokens, List.length_append, List.length_cons, List.length_singleton] at hfuel
    obtain ⟨fuel, rfl⟩ := Nat.exists_eq_add_of_le' (Nat.le_trans (Nat.le_add_left 1 _) hfuel)
    rw [nodeTokens, nodeEvents_map, List.cons_append, List.cons_append, node_blockMapping,
      List.append_assoc, List.singleton_append, blockPairs_entries h (by omega)]
    simp

/-- A sequence with elements behind a key has no indentation of its own. -/
theorem valueParses_items {item : Tree} {others : List Tree}
    (h : ∀ t ∈ item :: others, NodeParses t) : ValueParses (.seq (item :: others)) := by
  intro fuel next rest handles events hfuel hnext
  rw [valueTokens] at hfuel
  obtain ⟨fuel, rfl⟩ := Nat.exists_eq_add_of_le' (Nat.le_trans (Nat.le_add_left 1 _) hfuel)
  obtain ⟨tail, htail⟩ : ∃ tail, itemsTokens (item :: others) = .blockEntry :: tail :=
    ⟨_, by rw [itemsTokens, List.cons_append]⟩
  rw [valueTokens, nodeEvents_seq, htail, List.cons_append, node_blockEntry, ← List.cons_append,
    ← htail, indentlessEntries_items h hnext (by omega)]
  simp

/-- Behind a key, a tree is parsed if it is parsed as a node, and so are its elements. -/
theorem valueParses_of_nodeParses {t : Tree} (hnode : NodeParses t)
    (hitems : ∀ items, t = .seq items → ∀ item ∈ items, NodeParses item) : ValueParses t := by
  rcases valueTokens_eq_or t with htokens | ⟨item, others, rfl⟩
  · intro fuel next rest handles events hfuel _
    rw [htokens] at hfuel ⊢
    exact hnode fuel true (next :: rest) handles events (by omega)
  · exact valueParses_items (hitems _ rfl)

/-- **Every tree is parsed** into its events, as a node and behind a key. -/
theorem nodeParses_and_valueParses (t : Tree) : NodeParses t ∧ ValueParses t := by
  -- both forms at once: an entry of a map needs either, depending on its key
  induction t using Tree.induct with
  | scalar v =>
    have hnode := nodeParses_scalar v
    exact ⟨hnode, valueParses_of_nodeParses hnode nofun⟩
  | seq items ih =>
    have hitems : ∀ t ∈ items, NodeParses t := fun t ht => (ih t ht).1
    have hnode := nodeParses_seq hitems
    exact ⟨hnode, valueParses_of_nodeParses hnode fun _ heq => Tree.seq.inj heq ▸ hitems⟩
  | map entries ih =>
    have hnode := nodeParses_map ih
    exact ⟨hnode, valueParses_of_nodeParses hnode nofun⟩

/-! ## Documents -/

/-- A tree that makes up a document is parsed like a node. -/
theorem document_nodeTokens (t : Tree) {fuel : Nat} (hfuel : (nodeTokens t).length ≤ fuel)
    (handles : Handles) :
    (document fuel).runOn ⟨nodeTokens t ++ [.streamEnd], handles, []⟩ =
      (.ok (), ⟨[.streamEnd], handles, (nodeEvents t).reverse⟩) := by
  obtain ⟨first, others, htokens, hfirst, -⟩ := nodeTokens_first t
  have hnode := (nodeParses_and_valueParses t).1 fuel false [.streamEnd] handles [] hfuel
  rw [htokens, List.cons_append, List.append_nil] at hnode
  rw [htokens, List.cons_append, document_node hfirst, hnode]

/-- **The tokens of a written document are parsed** into the events of its tree. -/
theorem ofTokens_nodeTokens (t : Tree) :
    Event.ofTokens (nodeTokens t ++ [.streamEnd]) = (nodeEvents t, true) := by
  have hfuel : (nodeTokens t).length ≤ 4 * (nodeTokens t ++ [Token.streamEnd]).length + 16 := by
    rw [List.length_append]
    omega
  have hrun := document_nodeTokens t hfuel standardHandles
  rw [Parser.runOn] at hrun
  rw [Event.ofTokens, hrun]
  simp [endOfText, Except.isOk, Except.toBool]

/-! ## Sources -/

/-- What a tree contributes to a source: no references, and no container with a tag of its own. -/
def IsBare : Document.Event Leaf → Prop
  | .openSeq marked => marked = false
  | .openMap marked => marked = false
  | .reference _ => False
  | _ => True

/-- The events of a tree are bare: a printer writes neither aliases nor tags of containers. -/
theorem isBare_treeEvents (t : Tree) : ∀ e ∈ treeEvents writtenLeaf t, IsBare e := by
  -- an event is bare by its own kind, so a container adds its two events to those of its children
  induction t using Tree.induct with
  | scalar v =>
    rw [treeEvents_scalar]
    simp [IsBare]
  | seq items ih =>
    rw [treeEvents_seq]
    simp only [List.forall_mem_cons, List.forall_mem_append, List.forall_mem_flatMap]
    simpa [IsBare] using ih
  | map entries ih =>
    rw [treeEvents_map]
    simp only [entryEvents, List.forall_mem_cons, List.forall_mem_append, List.forall_mem_flatMap]
    simpa [IsBare] using ih

/-- Events without anchors and aliases are taken as they are. -/
theorem linkFrom_bareEvent {es : List (Document.Event Leaf)} (h : ∀ e ∈ es, IsBare e)
    (anchors : Anchors) (position : Nat) :
    linkFrom anchors position (es.map bareEvent) = (es, anchors.slots, true) := by
  induction es generalizing position with
  | nil => rfl
  | cons e rest ih =>
    obtain ⟨he, hrest⟩ := List.forall_mem_cons.mp h
    rw [List.map_cons]
    -- without anchors nothing is noted, and the positions do not matter
    cases e with
    | leaf l => simp [bareEvent, linkFrom, Anchors.add, ih hrest]
    | openSeq marked =>
      have hmarked : marked = false := he
      simp [bareEvent, linkFrom, Anchors.add, ih hrest, noProperties, hmarked]
    | openMap marked =>
      have hmarked : marked = false := he
      simp [bareEvent, linkFrom, Anchors.add, ih hrest, noProperties, hmarked]
    | reference slot => exact he.elim
    | closeSeq => simp [bareEvent, linkFrom, ih hrest]
    | closeMap => simp [bareEvent, linkFrom, ih hrest]
    | absent => simp [bareEvent, linkFrom, ih hrest]

/-- **A written text is a source of the events of its tree**, free of faults. -/
theorem source_render (t : Tree) : source (render t) = ⟨treeEvents writtenLeaf t, [], false⟩ := by
  have htext : (render t).toList = renderChars t := String.toList_ofList
  rw [source, htext, ofText_renderChars]
  simp only [ofTokens_nodeTokens]
  rw [nodeEvents, linkFrom_bareEvent (isBare_treeEvents t)]
  rfl

end ModelGraph.Yaml
