import ModelGraph.Proofs.Yaml.Written

/-!
# Tokens of a document

A written tree is split into the tokens of its structure. The proof follows the tree: a node is
split off wherever the line behind it stands further left, given that all its children are.

- `nodeTokens`, `valueTokens`: the tokens of a node and of the value of a key, which differ for
  sequences, since those are not indented behind a key.
- `NodeReads`, `ValueReads`: what is shown for each subtree.
- `ofText_renderChars`: the tokens of a whole document.
-/

namespace ModelGraph.Yaml

/-! ## Tokens of a tree -/

mutual

/-- The tokens of a node of a block. -/
def nodeTokens : Tree → List Token
  | .scalar v => [leafToken v]
  | .map ⟨[]⟩ => [.flowMappingStart, .flowMappingEnd]
  | .map ⟨entry :: rest⟩ => .blockMappingStart :: entriesTokens (entry :: rest) ++ [.blockEnd]
  | .seq [] => [.flowSequenceStart, .flowSequenceEnd]
  | .seq (item :: rest) => .blockSequenceStart :: itemsTokens (item :: rest) ++ [.blockEnd]

/-- The tokens of the value of a key on the same line. -/
def valueTokens : Tree → List Token
  | .scalar v => [leafToken v]
  | .map ⟨[]⟩ => [.flowMappingStart, .flowMappingEnd]
  | .map ⟨entry :: rest⟩ => .blockMappingStart :: entriesTokens (entry :: rest) ++ [.blockEnd]
  | .seq [] => [.flowSequenceStart, .flowSequenceEnd]
  | .seq (item :: rest) => itemsTokens (item :: rest)

/-- The tokens of entries. -/
def entriesTokens : List (String × Tree) → List Token
  | [] => []
  | (key, value) :: rest =>
    .key :: leafToken (.text key) :: .value ::
      (if isSimpleKey key then valueTokens value else nodeTokens value) ++ entriesTokens rest

/-- The tokens of elements. -/
def itemsTokens : List Tree → List Token
  | [] => []
  | item :: rest => .blockEntry :: nodeTokens item ++ itemsTokens rest

end

/-! ## Subtrees -/

open Lexer

/-- A node is split off as its tokens, wherever the line behind it stands further left. -/
def NodeReads (t : Tree) : Prop :=
  ∀ (i : Nat) (outer : List Nat) (m : Mark) (k : Nat) (body : List Char) (tokens : List Token),
    m.column = i + 2 → k ≤ i → Solid body →
    ∃ m' : Mark, m'.column = k ∧
      Reads (inBlock (nodeText (i + 2) t ++ (spaces k ++ body)) m true (i :: outer) tokens)
        (facing body m' true (i :: outer) ((nodeTokens t).reverse ++ tokens))

/-- The value of a key is split off as its tokens from behind the colon. -/
def ValueReads (t : Tree) : Prop :=
  ∀ (i : Nat) (outer : List Nat) (m : Mark) (k : Nat) (body : List Char) (tokens : List Token),
    i ≤ m.column → k ≤ i → Solid body →
    ∃ (a : Lexer) (m' : Mark), m'.column = k ∧
      (inBlock (valueText i t ++ (spaces k ++ body)) m false (i :: outer) tokens).front = some a ∧
      a.rest.length ≤ (valueText i t ++ (spaces k ++ body)).length ∧
      Reads a (facing body m' true (i :: outer) ((valueTokens t).reverse ++ tokens))

section

variable {i k : Nat} {outer indents : List Nat} {m : Mark} {body : List Char}
    {tokens tokens' : List Token}

/-- At the column of the innermost collection nothing ends. -/
theorem facing_column (hcolumn : m.column = i) :
    facing body m true (i :: outer) tokens = inBlock body m true (i :: outer) tokens :=
  facing_of_le (fun j hj => by rw [hcolumn, ← Option.some.inj hj]) body true tokens

/-- One element of a sequence, which may begin it. -/
theorem reads_item {item : Tree} (hitem : NodeReads item)
    (henters : Enters i .blockSequenceStart indents tokens (i :: outer) tokens')
    (hcolumn : m.column = i) (hk : k ≤ i) (hbody : Solid body) :
    ∃ m' : Mark, m'.column = k ∧
      Reads
        (inBlock ('-' :: ' ' :: (nodeText (i + 2) item ++ (spaces k ++ body))) m true indents
          tokens)
        (facing body m' true (i :: outer)
          ((nodeTokens item).reverse ++ .blockEntry :: tokens')) := by
  obtain ⟨hnonempty, hsolid⟩ := solid_nodeText (i + 2) item
  rw [← hcolumn] at henters
  -- the hyphen and its space bring the node to the column where its lines are indented
  obtain ⟨m', hcolumn', hreads⟩ := hitem i outer (m.right 2) k body (.blockEntry :: tokens')
    (by rw [Mark.right_column, hcolumn]) hk hbody
  refine ⟨m', hcolumn', .head (moves_entry (solid_append hnonempty hsolid _) henters) ?_⟩
  rw [hcolumn]
  exact hreads

/-- Elements of a sequence, the first of which may begin it. Only the last one ends at the column
that is given, and each of the others where the next one begins. -/
theorem reads_items {items : List Tree} (hitems : ∀ t ∈ items, NodeReads t) (hne : items ≠ [])
    (henters : Enters i .blockSequenceStart indents tokens (i :: outer) tokens')
    (hcolumn : m.column = i) (hk : k ≤ i) (hbody : Solid body) :
    ∃ m' : Mark, m'.column = k ∧
      Reads (inBlock (itemsText i items ++ (spaces k ++ body)) m true indents tokens)
        (facing body m' true (i :: outer) ((itemsTokens items).reverse ++ tokens')) := by
  induction items generalizing m indents tokens tokens' with
  | nil => exact absurd rfl hne
  | cons item rest ih =>
    have hitem := hitems item List.mem_cons_self
    cases rest with
    | nil =>
      have htokens : (itemsTokens [item]).reverse ++ tokens' =
          (nodeTokens item).reverse ++ .blockEntry :: tokens' := by simp [itemsTokens]
      rw [itemsText, htokens]
      exact reads_item hitem henters hcolumn hk hbody
    | cons next others =>
      -- the element is followed by the next one, at the column of the sequence
      obtain ⟨hnonempty, hsolid⟩ := solid_itemsText i next others
      obtain ⟨m', hcolumn', hreads⟩ := reads_item hitem henters hcolumn (Nat.le_refl i)
        (solid_append hnonempty hsolid (spaces k ++ body))
      rw [facing_column hcolumn'] at hreads
      obtain ⟨m'', hcolumn'', hreads'⟩ := ih (fun t ht => hitems t (List.mem_cons_of_mem item ht))
        (List.cons_ne_nil next others) .inside hcolumn'
      have htext : itemsText i (item :: next :: others) ++ (spaces k ++ body) =
          '-' :: ' ' :: (nodeText (i + 2) item ++
            (spaces i ++ (itemsText i (next :: others) ++ (spaces k ++ body)))) := by
        rw [itemsText]
        · simp
        · exact List.cons_ne_nil _ _
      have htokens : (itemsTokens (item :: next :: others)).reverse ++ tokens' =
          (itemsTokens (next :: others)).reverse ++
            ((nodeTokens item).reverse ++ .blockEntry :: tokens') := by
        rw [itemsTokens]
        simp
      refine ⟨m'', hcolumn'', ?_⟩
      rw [htext, htokens]
      exact hreads.trans hreads'

/-- An entry whose key stands on one line with the beginning of its value. -/
theorem reads_simpleEntry {key : String} {value : Tree} (hkey : isSimpleKey key = true)
    (hvalue : ValueReads value)
    (henters : Enters i .blockMappingStart indents tokens (i :: outer) tokens')
    (hcolumn : m.column = i) (hk : k ≤ i) (hbody : Solid body) :
    ∃ m' : Mark, m'.column = k ∧
      Reads (inBlock (entryText i (key, value) ++ (spaces k ++ body)) m true indents tokens)
        (facing body m' true (i :: outer)
          ((valueTokens value).reverse ++ .value :: leafToken (.text key) :: .key :: tokens')) := by
  rw [← hcolumn] at henters
  -- the key is one step; the next one takes the colon and stops in front of the value
  obtain ⟨b, m₁, hmoves, htake, hcolumn₁, hlength⟩ := reads_simpleKey hkey i
    (endsWord_valueText i value (spaces k ++ body)) henters
  obtain ⟨a, m', hcolumn', hfront, hshort, hreads⟩ :=
    hvalue i outer m₁ k body (.value :: leafToken (.text key) :: .key :: tokens') (by omega)
      hk hbody
  have htext : entryText i (key, value) ++ (spaces k ++ body) =
      scalarText i key.toList ++ ':' :: (valueText i value ++ (spaces k ++ body)) := by
    rw [entryText, if_pos hkey]
    simp
  refine ⟨m', hcolumn', ?_⟩
  rw [htext]
  rw [hcolumn] at htake
  exact .head hmoves (.head ⟨_, htake, rfl, hfront, Nat.lt_of_le_of_lt hshort hlength⟩ hreads)

/-- An entry whose key has lines of its own behind a question mark, and whose value follows a colon
on the next line. -/
theorem reads_explicitEntry {key : String} {value : Tree} (hkey : ¬isSimpleKey key = true)
    (hnode : NodeReads value)
    (henters : Enters i .blockMappingStart indents tokens (i :: outer) tokens')
    (hcolumn : m.column = i) (hk : k ≤ i) (hbody : Solid body) :
    ∃ m' : Mark, m'.column = k ∧
      Reads (inBlock (entryText i (key, value) ++ (spaces k ++ body)) m true indents tokens)
        (facing body m' true (i :: outer)
          ((nodeTokens value).reverse ++ .value :: leafToken (.text key) :: .key :: tokens')) := by
  obtain ⟨hnonempty, hsolid⟩ := solid_nodeText (i + 2) value
  obtain ⟨hkeyNonempty, hkeySolid⟩ := solid_endLine_leafText (i + 2) (.text key)
  rw [← hcolumn] at henters
  -- the key is a leaf inside the entry, and the colon stands at the column of the entry again
  obtain ⟨m₁, hcolumn₁, hkeyMoves⟩ : ∃ m' : Mark, m'.column = i ∧
      Moves (inBlock (endLine (leafText (i + 2) (.text key)) ++ (spaces i ++
          (':' :: ' ' :: (nodeText (i + 2) value ++ (spaces k ++ body)))))
          (m.right 2) true (i :: outer) (.key :: tokens'))
        (facing (':' :: ' ' :: (nodeText (i + 2) value ++ (spaces k ++ body)))
          m' true (i :: outer) (leafToken (.text key) :: .key :: tokens')) := by
    refine moves_leaf (.text key) (solid_cons.mpr (by decide)) (by rw [least]; omega) (by omega)
      (.inl (Nat.lt_succ_self i)) fun j hj => ?_
    rw [← Option.some.inj hj, Mark.right_column]
    omega
  rw [facing_column hcolumn₁] at hkeyMoves
  have hcolon : Moves
      (inBlock (':' :: ' ' :: (nodeText (i + 2) value ++ (spaces k ++ body)))
        m₁ true (m₁.column :: outer) (leafToken (.text key) :: .key :: tokens'))
      (inBlock (nodeText (i + 2) value ++ (spaces k ++ body)) (m₁.right 2) true
        (m₁.column :: outer) (.value :: leafToken (.text key) :: .key :: tokens')) :=
    moves_colon (solid_append hnonempty hsolid (spaces k ++ body)) outer
  rw [hcolumn₁] at hcolon
  obtain ⟨m', hcolumn', hreads⟩ := hnode i outer (m₁.right 2) k body
    (.value :: leafToken (.text key) :: .key :: tokens') (by rw [Mark.right_column, hcolumn₁])
    hk hbody
  have htext : entryText i (key, value) ++ (spaces k ++ body) =
      '?' :: ' ' :: (endLine (leafText (i + 2) (.text key)) ++ (spaces i ++
        (':' :: ' ' :: (nodeText (i + 2) value ++ (spaces k ++ body))))) := by
    have hleaf : scalarText (i + 2) key.toList = leafText (i + 2) (.text key) := rfl
    rw [entryText, if_neg hkey, hleaf]
    simp
  refine ⟨m', hcolumn', ?_⟩
  rw [htext]
  refine .head (moves_question (solid_append hkeyNonempty hkeySolid _) henters) ?_
  rw [hcolumn]
  exact .head hkeyMoves (.head hcolon hreads)

/-- One entry of a map, which may begin it. -/
theorem reads_entry {entry : String × Tree} (hnode : NodeReads entry.2)
    (hvalue : ValueReads entry.2)
    (henters : Enters i .blockMappingStart indents tokens (i :: outer) tokens')
    (hcolumn : m.column = i) (hk : k ≤ i) (hbody : Solid body) :
    ∃ m' : Mark, m'.column = k ∧
      Reads (inBlock (entryText i entry ++ (spaces k ++ body)) m true indents tokens)
        (facing body m' true (i :: outer) ((entriesTokens [entry]).reverse ++ tokens')) := by
  obtain ⟨key, value⟩ := entry
  have htokens : (entriesTokens [(key, value)]).reverse ++ tokens' =
      (if isSimpleKey key then valueTokens value else nodeTokens value).reverse ++
        .value :: leafToken (.text key) :: .key :: tokens' := by
    simp [entriesTokens]
  rw [htokens]
  -- only the form of the key differs, and with it the place of the value
  by_cases hkey : isSimpleKey key = true
  · rw [if_pos hkey]
    exact reads_simpleEntry hkey hvalue henters hcolumn hk hbody
  · rw [if_neg hkey]
    exact reads_explicitEntry hkey hnode henters hcolumn hk hbody

/-- Entries of a map, the first of which may begin it. Only the last one ends at the column that is
given, and each of the others where the next one begins. -/
theorem reads_entries {entries : List (String × Tree)}
    (hentries : ∀ e ∈ entries, NodeReads e.2 ∧ ValueReads e.2) (hne : entries ≠ [])
    (henters : Enters i .blockMappingStart indents tokens (i :: outer) tokens')
    (hcolumn : m.column = i) (hk : k ≤ i) (hbody : Solid body) :
    ∃ m' : Mark, m'.column = k ∧
      Reads (inBlock (entriesText i entries ++ (spaces k ++ body)) m true indents tokens)
        (facing body m' true (i :: outer) ((entriesTokens entries).reverse ++ tokens')) := by
  induction entries generalizing m indents tokens tokens' with
  | nil => exact absurd rfl hne
  | cons entry rest ih =>
    obtain ⟨hnode, hvalue⟩ := hentries entry List.mem_cons_self
    cases rest with
    | nil =>
      rw [entriesText]
      exact reads_entry hnode hvalue henters hcolumn hk hbody
    | cons next others =>
      -- the entry ends where the next one begins, at the column of the map
      obtain ⟨hnonempty, hsolid⟩ := solid_entriesText i next others
      obtain ⟨m', hcolumn', hreads⟩ := reads_entry hnode hvalue henters hcolumn (Nat.le_refl i)
        (solid_append hnonempty hsolid (spaces k ++ body))
      rw [facing_column hcolumn'] at hreads
      obtain ⟨m'', hcolumn'', hreads'⟩ :=
        ih (fun e he => hentries e (List.mem_cons_of_mem entry he))
        (List.cons_ne_nil next others) .inside hcolumn'
      have htext : entriesText i (entry :: next :: others) ++ (spaces k ++ body) =
          entryText i entry ++ (spaces i ++
            (entriesText i (next :: others) ++ (spaces k ++ body))) := by
        rw [entriesText]
        · simp
        · exact List.cons_ne_nil _ _
      have htokens : (entriesTokens (entry :: next :: others)).reverse ++ tokens' =
          (entriesTokens (next :: others)).reverse ++
            ((entriesTokens [entry]).reverse ++ tokens') := by
        obtain ⟨key, value⟩ := entry
        rw [entriesTokens, entriesTokens]
        simp [entriesTokens]
      refine ⟨m'', hcolumn'', ?_⟩
      rw [htext, htokens]
      exact hreads.trans hreads'

/-- What stands on the line of a key is faced once the space in front of it is passed over. -/
theorem front_value {s rest : List Char} (hne : s ≠ []) (hs : Solid s) (hcolumn : i ≤ m.column) :
    (inBlock (' ' :: (s ++ rest)) m false (i :: outer) tokens).front =
      some (inBlock (s ++ rest) (m.right 1) false (i :: outer) tokens) := by
  rw [show ' ' :: (s ++ rest) = spaces 1 ++ (s ++ rest) from rfl,
    front_spaces (solid_append hne hs rest), facing_of_le]
  intro j hj
  rw [← Option.some.inj hj, Mark.right_column]
  omega

/-- What stands on the line after a key is faced once its indentation is passed over. -/
theorem front_below {s rest : List Char} (hne : s ≠ []) (hs : Solid s) {n : Nat} (hn : i ≤ n) :
    ∃ m' : Mark, m'.column = n ∧
      (inBlock ('\n' :: (spaces n ++ (s ++ rest))) m false (i :: outer) tokens).front =
        some (inBlock (s ++ rest) m' true (i :: outer) tokens) := by
  refine ⟨⟨m.index + 1 + n, m.line + 1, n⟩, rfl, ?_⟩
  rw [front_feed (solid_append hne hs rest) n rfl rfl rfl (show Spare _ none from nofun)]
  refine congrArg some (facing_of_le (fun j hj => ?_) _ _ _)
  rw [← Option.some.inj hj]
  exact hn

/-- A column right of the innermost collection is right of whatever is first
among the collections. -/
theorem lt_of_head? {c : Nat} (hc : i < c) : ∀ j ∈ (i :: outer).head?, j < c := by
  intro j hj
  rw [← Option.some.inj hj]
  exact hc

/-- A leaf inside a block collection. -/
theorem reads_leaf (v : Scalar) {allowed : Bool} (hcolumn : i < m.column) (hk : k ≤ i)
    (hbody : Solid body) :
    ∃ m' : Mark, m'.column = k ∧
      Reads
        (inBlock (endLine (leafText (i + 2) v) ++ (spaces k ++ body)) m allowed (i :: outer) tokens)
        (facing body m' true (i :: outer) (leafToken v :: tokens)) := by
  obtain ⟨m', hcolumn', hmoves⟩ := moves_leaf v hbody (by rw [least]; omega) (by omega)
    (.inl (Nat.lt_succ_of_le hk)) (lt_of_head? hcolumn)
  exact ⟨m', hcolumn', .single hmoves⟩

/-- A nonempty map one level further in, which ends at what follows. -/
theorem reads_innerMap {entry : String × Tree} {rest : List (String × Tree)}
    (hentries : ∀ e ∈ entry :: rest, NodeReads e.2 ∧ ValueReads e.2)
    (hcolumn : m.column = i + 2) (hk : k ≤ i) (hbody : Solid body) :
    ∃ m' : Mark, m'.column = k ∧
      Reads
        (inBlock (entriesText (i + 2) (entry :: rest) ++ (spaces k ++ body)) m true (i :: outer)
          tokens)
        (facing body m' true (i :: outer) (.blockEnd ::
          ((entriesTokens (entry :: rest)).reverse ++ .blockMappingStart :: tokens))) := by
  obtain ⟨m', hcolumn', hreads⟩ := reads_entries hentries (List.cons_ne_nil _ _)
    (.opening (lt_of_head? (by omega : i < i + 2))) hcolumn (Nat.le_add_right_of_le hk) hbody
  -- what follows stands further left, so the mapping ends in front of it
  rw [facing_cons (by omega)] at hreads
  exact ⟨m', hcolumn', hreads⟩

/-- A nonempty sequence one level further in, which ends at what follows. -/
theorem reads_innerSeq {item : Tree} {rest : List Tree} (hitems : ∀ t ∈ item :: rest, NodeReads t)
    (hcolumn : m.column = i + 2) (hk : k ≤ i) (hbody : Solid body) :
    ∃ m' : Mark, m'.column = k ∧
      Reads
        (inBlock (itemsText (i + 2) (item :: rest) ++ (spaces k ++ body)) m true (i :: outer)
          tokens)
        (facing body m' true (i :: outer) (.blockEnd ::
          ((itemsTokens (item :: rest)).reverse ++ .blockSequenceStart :: tokens))) := by
  obtain ⟨m', hcolumn', hreads⟩ := reads_items hitems (List.cons_ne_nil _ _)
    (.opening (lt_of_head? (by omega : i < i + 2))) hcolumn (Nat.le_add_right_of_le hk) hbody
  rw [facing_cons (by omega)] at hreads
  exact ⟨m', hcolumn', hreads⟩

end

/-- An empty map or sequence is split off as two tokens, at a node and behind a key. -/
theorem reads_emptyTree {first last : Char} {t t' : Token} (h : Empty first last t t') {x : Tree}
    (hnode : ∀ i, nodeText i x = [first, last, '\n'])
    (hvalue : ∀ i, valueText i x = [' ', first, last, '\n'])
    (hnodeTokens : nodeTokens x = [t, t']) (hvalueTokens : valueTokens x = [t, t']) :
    NodeReads x ∧ ValueReads x := by
  -- both forms are the two indicators, behind a space where a key stands in front
  have hsolid : Solid [first, last, '\n'] := solid_cons.mpr (by cases h <;> decide)
  constructor
  · intro i outer m k body tokens hcolumn hk hbody
    rw [hnode, hnodeTokens]
    exact reads_empty h hbody k (head?_ne_of_lt (lt_of_head? (by omega)))
  · intro i outer m k body tokens hcolumn hk hbody
    rw [hvalue, hvalueTokens]
    obtain ⟨m', hcolumn', hreads⟩ : ∃ m' : Mark, m'.column = k ∧
        Reads
          (inBlock (first :: last :: '\n' :: (spaces k ++ body)) (m.right 1) false (i :: outer)
            tokens)
          (facing body m' true (i :: outer) (t' :: t :: tokens)) :=
      reads_empty h hbody k (head?_ne_of_lt (lt_of_head? (Nat.lt_succ_of_le hcolumn)))
    exact ⟨_, m', hcolumn', front_value (List.cons_ne_nil _ _) hsolid hcolumn,
      Nat.le_succ _, hreads⟩

/-- A leaf, which stands behind a key on the same line. -/
theorem nodeReads_and_valueReads_scalar (v : Scalar) :
    NodeReads (.scalar v) ∧ ValueReads (.scalar v) := by
  constructor
  · intro i outer m k body tokens hcolumn hk hbody
    rw [nodeText, nodeTokens]
    exact reads_leaf v (by omega) hk hbody
  · intro i outer m k body tokens hcolumn hk hbody
    obtain ⟨hne, hsolid⟩ := solid_endLine_leafText (i + 2) v
    -- behind a colon the leaf stands on the line of its key
    have hright : i < (m.right 1).column := Nat.lt_succ_of_le hcolumn
    obtain ⟨m', hcolumn', hreads⟩ := reads_leaf v hright hk hbody
    rw [valueText, valueTokens]
    exact ⟨_, m', hcolumn', front_value hne hsolid hcolumn, Nat.le_succ _, hreads⟩

/-- A sequence with elements. Behind a key it stands on the next lines at the column of the key, so
no sequence begins or ends. -/
theorem nodeReads_and_valueReads_items {item : Tree} {rest : List Tree}
    (hitems : ∀ t ∈ item :: rest, NodeReads t) :
    NodeReads (.seq (item :: rest)) ∧ ValueReads (.seq (item :: rest)) := by
  constructor
  · intro i outer m k body tokens hcolumn hk hbody
    rw [nodeText, nodeTokens]
    simpa using reads_innerSeq hitems hcolumn hk hbody
  · intro i outer m k body tokens hcolumn hk hbody
    -- behind a key the sequence begins on the next line, at the column of the key
    obtain ⟨hne, hsolid⟩ := solid_itemsText i item rest
    obtain ⟨m₁, hcolumn₁, hfront⟩ := front_below hne hsolid (Nat.le_refl i)
    obtain ⟨m', hcolumn', hreads⟩ :=
      reads_items hitems (List.cons_ne_nil _ _) .inside hcolumn₁ hk hbody
    rw [valueText, valueTokens]
    refine ⟨_, m', hcolumn', ?_, ?_, hreads⟩
    · simpa using hfront
    · simp only [inBlock, List.length_append, List.length_cons]
      omega

/-- A map with entries. Behind a key it stands on the next lines, two columns further right. -/
theorem nodeReads_and_valueReads_entries {entry : String × Tree} {rest : List (String × Tree)}
    (hentries : ∀ e ∈ entry :: rest, NodeReads e.2 ∧ ValueReads e.2) :
    NodeReads (.map ⟨entry :: rest⟩) ∧ ValueReads (.map ⟨entry :: rest⟩) := by
  constructor
  · intro i outer m k body tokens hcolumn hk hbody
    rw [nodeText, nodeTokens]
    simpa using reads_innerMap hentries hcolumn hk hbody
  · intro i outer m k body tokens hcolumn hk hbody
    -- behind a key the map begins on the next line, further to the right
    obtain ⟨hne, hsolid⟩ := solid_entriesText (i + 2) entry rest
    obtain ⟨m₁, hcolumn₁, hfront⟩ := front_below hne hsolid (Nat.le_add_right i 2)
    obtain ⟨m', hcolumn', hreads⟩ := reads_innerMap hentries hcolumn₁ hk hbody
    rw [valueText, valueTokens]
    refine ⟨inBlock (entriesText (i + 2) (entry :: rest) ++ (spaces k ++ body)) m₁ true
      (i :: outer) tokens, m', hcolumn', ?_, ?_, ?_⟩
    · simpa using hfront
    · simp only [inBlock, List.length_append, List.length_cons]
      omega
    · simpa using hreads

/-- **Every tree is split off** as its tokens, as a node and behind a key. Both are proved at once
by induction on the tree, as an element is a node and an entry has its value behind a key. -/
theorem nodeReads_and_valueReads (t : Tree) : NodeReads t ∧ ValueReads t := by
  -- both forms at once: an entry of a map needs either, depending on its key
  induction t using Tree.induct with
  | scalar v => exact nodeReads_and_valueReads_scalar v
  | seq items ih =>
    cases items with
    | nil =>
      exact reads_emptyTree .seq (fun i => by rw [nodeText]) (fun i => by rw [valueText])
        (by rw [nodeTokens]) (by rw [valueTokens])
    | cons item rest => exact nodeReads_and_valueReads_items fun t ht => (ih t ht).1
  | map entries ih =>
    cases entries with
    | nil =>
      exact reads_emptyTree .map (fun i => by rw [nodeText]) (fun i => by rw [valueText])
        (by rw [nodeTokens]) (by rw [valueTokens])
    | cons entry rest => exact nodeReads_and_valueReads_entries ih

/-! ## Whole documents -/

/-- The block collections that are still open end with the text. -/
theorem take_end (m : Mark) (indents : List Nat) (tokens : List Token) :
    ∃ e, (inBlock [] m true indents tokens).take = some e ∧ e.finished = true ∧
      e.tokens = .streamEnd :: (indents.map (fun _ => Token.blockEnd) ++ tokens) :=
  ⟨_, rfl, rfl, rfl⟩

/-- A map that makes up a document. -/
theorem reads_outermostMap (entry : String × Tree) (rest : List (String × Tree)) :
    ∃ m : Mark, Reads (inBlock (entriesText 0 (entry :: rest)) Mark.start true [] [])
      (inBlock [] m true [0] ((entriesTokens (entry :: rest)).reverse ++
        [.blockMappingStart])) := by
  have henters : Enters 0 .blockMappingStart [] [] [0] [.blockMappingStart] := .opening nofun
  obtain ⟨m, hcolumn, hreads⟩ := reads_entries (m := Mark.start) (k := 0)
    (fun e _ => nodeReads_and_valueReads e.2) (List.cons_ne_nil entry rest) henters rfl
    (Nat.le_refl 0) solid_nil
  rw [facing_column hcolumn, spaces, List.replicate_zero, List.append_nil,
    List.append_nil] at hreads
  exact ⟨m, hreads⟩

/-- A sequence that makes up a document. -/
theorem reads_outermostSeq (item : Tree) (rest : List Tree) :
    ∃ m : Mark, Reads (inBlock (itemsText 0 (item :: rest)) Mark.start true [] [])
      (inBlock [] m true [0] ((itemsTokens (item :: rest)).reverse ++ [.blockSequenceStart])) := by
  have henters : Enters 0 .blockSequenceStart [] [] [0] [.blockSequenceStart] := .opening nofun
  obtain ⟨m, hcolumn, hreads⟩ := reads_items (m := Mark.start) (k := 0)
    (fun t _ => (nodeReads_and_valueReads t).1) (List.cons_ne_nil item rest) henters rfl
    (Nat.le_refl 0) solid_nil
  rw [facing_column hcolumn, spaces, List.replicate_zero, List.append_nil,
    List.append_nil] at hreads
  exact ⟨m, hreads⟩

/-- A leaf that makes up a document. -/
theorem reads_outermostLeaf (v : Scalar) :
    ∃ m : Mark, Reads (inBlock (endLine (leafText 2 v)) Mark.start true [] [])
      (inBlock [] m true [] [leafToken v]) := by
  have hnone : ∀ i ∈ ([] : List Nat).head?, i < Mark.start.column := nofun
  obtain ⟨m, -, hmoves⟩ := moves_leaf (m := Mark.start) (k := 0) v solid_nil (show 2 = _ from rfl)
    (Nat.succ_pos 1) (.inr rfl) hnone
  rw [facing_of_le (by simp), spaces, List.replicate_zero, List.append_nil,
    List.append_nil] at hmoves
  exact ⟨m, .single hmoves⟩

/-- A document is read to its end, up to the ends of collections. It begins at the first column,
where no collection is open. -/
theorem reads_renderChars (t : Tree) :
    ∃ (m : Mark) (indents : List Nat) (tokens : List Token),
      Reads (inBlock (renderChars t) Mark.start true [] []) (inBlock [] m true indents tokens) ∧
        indents.map (fun _ => Token.blockEnd) ++ tokens = (nodeTokens t).reverse := by
  match t with
  | .scalar v =>
    obtain ⟨m, hreads⟩ := reads_outermostLeaf v
    exact ⟨m, [], _, hreads, by rw [nodeTokens]; rfl⟩
  -- an empty container opens no block, so no indentation is left
  | .map ⟨[]⟩ =>
    obtain ⟨m, -, hreads⟩ := reads_empty (m := Mark.start) .map solid_nil 0
      (show ([] : List Nat).head? ≠ some 0 from nofun)
    exact ⟨m, [], _, hreads, by rw [nodeTokens]; rfl⟩
  | .seq [] =>
    obtain ⟨m, -, hreads⟩ := reads_empty (m := Mark.start) .seq solid_nil 0
      (show ([] : List Nat).head? ≠ some 0 from nofun)
    exact ⟨m, [], _, hreads, by rw [nodeTokens]; rfl⟩
  | .map ⟨entry :: rest⟩ =>
    obtain ⟨m, hreads⟩ := reads_outermostMap entry rest
    have hrender : renderChars (.map ⟨entry :: rest⟩) = entriesText 0 (entry :: rest) := by
      simp [renderChars, nodeText]
    rw [hrender]
    exact ⟨m, [0], _, hreads, by simp [nodeTokens]⟩
  | .seq (item :: rest) =>
    obtain ⟨m, hreads⟩ := reads_outermostSeq item rest
    have hrender : renderChars (.seq (item :: rest)) = itemsText 0 (item :: rest) := by
      simp [renderChars, nodeText]
    rw [hrender]
    exact ⟨m, [0], _, hreads, by simp [nodeTokens]⟩

/-- A document begins with something else than white space. -/
theorem solid_renderChars (t : Tree) : Solid (renderChars t) := by
  unfold renderChars
  split
  · exact (solid_endLine_leafText 2 _).2
  · exact (solid_nodeText 0 t).2

/-- **A written document is split into the tokens of its tree**, without a fault. -/
theorem ofText_renderChars (t : Tree) :
    Token.ofText (renderChars t) = (nodeTokens t ++ [.streamEnd], true) := by
  obtain ⟨m, indents, tokens, hreads, htokens⟩ := reads_renderChars t
  obtain ⟨e, htake, hfinished, he⟩ := take_end m indents tokens
  have hfront : (Lexer.start (renderChars t)).front =
      some (inBlock (renderChars t) Mark.start true [] []) := by
    have hstart : Lexer.start (renderChars t) =
        inBlock (spaces 0 ++ renderChars t) Mark.start true [] [] := rfl
    rw [hstart, front_spaces (solid_renderChars t), facing_of_le (by simp)]
    rfl
  -- the length of the text is fuel enough
  rw [Token.ofText, if_pos (isAllowed_renderChars t),
    run_of_reads hreads htake hfinished hfront (by show (renderChars t).length < _; omega), he,
      htokens]
  simp

end ModelGraph.Yaml
