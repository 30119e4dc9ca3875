import ModelGraph.Proofs.Document.Reading
import ModelGraph.Proofs.Json.Leaf

/-!
# Events of a JSON text

A written tree is split into its tokens, line breaks and indentation aside, and the grammar turns
them into the events of the tree.

- `Splits`: a text is split into some tokens, whatever follows it.
- `splits_prettyText`: the tokens of a tree.
- `Leads`: tokens take the grammar from one stage to another one.
- `source_render`: a written text as a source of events.
- `readTree_of_render`: a tree is read back from its text.
-/

namespace ModelGraph.Json

open ModelGraph.Document (treeEvents entryEvents treeEvents_scalar treeEvents_seq treeEvents_map
  Faithful restores_tree)
open Binary64 (isNumeralChar isNumeralChar_ne)

/-! ## Splitting -/

/-- The text is split into the tokens, whatever follows that is no part of a number. There are no
more tokens than characters, so the length of a text is fuel enough. Texts that are split may be put
behind each other, which is how the tokens of a tree are found without ever looking at the whole
text. -/
structure Splits (s : List Char) (ts : List Token) : Prop where
  tokens : ∀ (rest : List Char) (fuel : Nat), EndsNumber rest →
    tokensFrom? (fuel + ts.length) (s ++ rest) = (tokensFrom? fuel rest).map (ts ++ ·)
  count : ts.length ≤ s.length

/-- Text that never goes on with a number, whatever follows it. Two texts that are split one after
the other need it of the second one. -/
def Separates (s : List Char) : Prop := ∀ rest, EndsNumber rest → EndsNumber (s ++ rest)

theorem separates_nil : Separates [] := fun _ h => h

/-- Whether a text goes on with a number is decided by its first character. -/
theorem separates_cons {c : Char} {s : List Char} (h : isNumeralChar c = false ∧ c ≠ 'E') :
    Separates (c :: s) := by
  intro rest _ d hd
  exact Option.some.inj hd ▸ h

theorem Separates.append {s s' : List Char} (h : Separates s) (h' : Separates s') :
    Separates (s ++ s') := by
  intro rest hrest
  rw [List.append_assoc]
  exact h _ (h' rest hrest)

theorem splits_nil : Splits [] [] where
  tokens := by
    intro rest fuel _
    show tokensFrom? fuel rest = _
    cases tokensFrom? fuel rest <;> rfl
  count := Nat.le_refl 0

/-- **Texts that are split are split one after the other**, if a number at the end of the first one
does not go on in the second one. -/
theorem Splits.append {s s' : List Char} {ts ts' : List Token} (h : Splits s ts)
    (h' : Splits s' ts') (hseparates : Separates s') : Splits (s ++ s') (ts ++ ts') where
  tokens := by
    intro rest fuel hrest
    -- what follows the first text is the second one, which must not go on with a number
    rw [List.length_append, Nat.add_comm ts.length, ← Nat.add_assoc, List.append_assoc,
      h.tokens (s' ++ rest) _ (hseparates rest hrest), h'.tokens rest fuel hrest]
    cases tokensFrom? fuel rest <;> simp
  count := by
    -- each text has at least as many characters as tokens, so both together do
    rw [List.length_append, List.length_append]
    exact Nat.add_le_add h.count h'.count

/-- Splitting begins behind white space. -/
theorem tokensFrom?_dropWhile (fuel : Nat) (s : List Char) :
    tokensFrom? fuel s = match s.dropWhile isSpace, fuel with
      | [], _ => some []
      | _, 0 => none
      | s, fuel + 1 =>
        match token? s with
        | some (t, rest) => (tokensFrom? fuel rest).map (t :: ·)
        | none => none :=
  tokensFrom?.eq_def fuel s

/-- White space in front of a token is passed over. -/
theorem Splits.space {s : List Char} {ts : List Token} (h : Splits s ts) {blank : List Char}
    (hblank : ∀ c ∈ blank, isSpace c = true) : Splits (blank ++ s) ts where
  tokens := by
    intro rest fuel hrest
    rw [List.append_assoc, tokensFrom?_dropWhile, List.dropWhile_append_of_pos hblank,
      ← tokensFrom?_dropWhile, h.tokens rest fuel hrest]
  count := by
    rw [List.length_append]
    exact Nat.le_add_left_of_le h.count

/-- One token, from what it is read as. -/
theorem splits_token {s : List Char} {t : Token} (hsolid : s.head?.any (fun c => !isSpace c) = true)
    (h : ∀ rest, EndsNumber rest → token? (s ++ rest) = some (t, rest)) : Splits s [t] := by
  obtain ⟨c, others, rfl⟩ : ∃ c others, s = c :: others := by
    cases s with
    | nil => exact absurd hsolid (by decide)
    | cons c others => exact ⟨c, others, rfl⟩
  refine ⟨fun rest fuel hrest => ?_, Nat.succ_le_succ (Nat.zero_le _)⟩
  -- nothing is passed over in front of the token
  have hdrop : (c :: others ++ rest).dropWhile isSpace = c :: others ++ rest := by
    rw [List.cons_append, List.dropWhile_cons_of_neg]
    simpa using hsolid
  have htoken := h rest hrest
  rw [List.cons_append] at hdrop htoken
  rw [List.length_singleton, tokensFrom?_dropWhile, List.cons_append, hdrop]
  simp only [htoken]
  rfl

/-- A text that splits into some tokens has these tokens. -/
theorem Splits.tokens? {s : List Char} {ts : List Token} (h : Splits s ts) :
    Json.tokens? s = some ts := by
  obtain ⟨fuel, hfuel⟩ := Nat.exists_eq_add_of_le' h.count
  have hwhole := h.tokens [] fuel fun c hc => absurd hc (by simp)
  have hnone : tokensFrom? fuel [] = some [] := by
    rw [tokensFrom?_dropWhile]
    rfl
  -- nothing is left behind the text, so all its tokens are found with the fuel that it is given
  rw [Json.tokens?, hfuel]
  rw [hnone, List.append_nil, Option.map_some, List.append_nil] at hwhole
  exact hwhole

/-- A token of one character. -/
theorem splits_mark {c : Char} {t : Token} (hsolid : isSpace c = false)
    (h : ∀ rest, token? (c :: rest) = some (t, rest)) : Splits [c] [t] :=
  splits_token (by simp [hsolid]) fun rest _ => h rest

theorem isSpace_newLine (indent : Nat) : ∀ c ∈ newLine indent, isSpace c = true := by
  intro c hc
  rcases List.mem_cons.mp hc with rfl | hc
  · rfl
  · rw [List.eq_of_mem_replicate hc]
    rfl

theorem separates_newLine (indent : Nat) (s : List Char) : Separates (newLine indent ++ s) :=
  separates_cons (by decide)

/-! ## Tokens of trees -/

/-- A comma, unless nothing follows. -/
def commaTokens (isLast : Bool) : List Token := if isLast then [] else [.comma]

mutual

/-- The tokens of a tree. They are the same for every indentation, so they are what the layout of a
text does not matter to. -/
def treeTokens : Tree → List Token
  | .scalar v => [.leaf (writtenLeaf v)]
  | .map ⟨entries⟩ => .openObject :: (entriesTokens entries ++ [.closeObject])
  | .seq items => .openArray :: (itemsTokens items ++ [.closeArray])

/-- The tokens of entries. -/
def entriesTokens : List (String × Tree) → List Token
  | [] => []
  | (key, value) :: rest =>
    .leaf (.string (some key)) :: .colon :: (treeTokens value ++
      (commaTokens rest.isEmpty ++ entriesTokens rest))

/-- The tokens of elements. -/
def itemsTokens : List Tree → List Token
  | [] => []
  | item :: rest => treeTokens item ++ (commaTokens rest.isEmpty ++ itemsTokens rest)

end

/-- No text of a leaf begins with white space. -/
theorem head?_leafText {v : Scalar} (h : Readable v) :
    (leafText v).head?.any (fun c => !isSpace c) = true := by
  -- a number begins with a digit or a sign, and neither is white space
  have number : ∀ v, (∃ n, IsNumber v n) → (leafText v).head?.any (fun c => !isSpace c) = true := by
    rintro v ⟨n, hn⟩
    obtain ⟨hne, hchars⟩ := hn.shape.chars
    obtain ⟨c, others, hcons⟩ := List.exists_cons_of_ne_nil hne
    have hc : isNumeralChar c = true := hchars c (hcons ▸ List.mem_cons_self)
    have hspace : ∀ d, isNumeralChar d = false → c ≠ d := fun d hd => isNumeralChar_ne hc hd
    rw [hcons]
    simp [isSpace, hspace ' ' (by decide), hspace '\n' (by decide), hspace '\t' (by decide),
      hspace '\r' (by decide)]
  cases v with
  | text s => rfl
  | bool b => cases b <;> rfl
  | int i => exact number _ (isNumber_int i)
  | wide n => exact number _ (isNumber_wide h)
  | float x => exact number _ (isNumber_float h)

/-- A comma between elements is a token of its own. -/
theorem splits_comma {α : Type} (rest : List α) :
    Splits (if rest.isEmpty then [] else [',']) (commaTokens rest.isEmpty) := by
  cases rest with
  | nil => exact splits_nil
  | cons x others => exact splits_mark (by decide) fun _ => rfl

theorem separates_comma {α : Type} (rest : List α) :
    Separates (if rest.isEmpty then [] else [',']) := by
  cases rest with
  | nil => exact separates_nil
  | cons x others => exact separates_cons (by decide)

/-- The text of a leaf is a single token. -/
theorem splits_leafText {v : Scalar} (h : Readable v) :
    Splits (leafText v) [.leaf (writtenLeaf v)] :=
  splits_token (head?_leafText h) fun _ hrest => token?_leafText h hrest

theorem separates_prettyItems (indent : Nat) (items : List Tree) :
    Separates (prettyItems indent items) := by
  cases items with
  | nil => rw [prettyItems]; exact separates_nil
  | cons item others =>
    rw [prettyItems, List.append_assoc, List.append_assoc]
    exact separates_newLine indent _

theorem separates_prettyEntries (indent : Nat) (entries : List (String × Tree)) :
    Separates (prettyEntries indent entries) := by
  cases entries with
  | nil => rw [prettyEntries]; exact separates_nil
  | cons entry others =>
    rw [prettyEntries, List.append_assoc, List.append_assoc, List.append_assoc]
    exact separates_newLine indent _

/-- Elements on lines of their own are split into the tokens of the elements with commas between
them. -/
theorem splits_prettyItems {items : List Tree} (indent : Nat)
    (h : ∀ t ∈ items, Splits (prettyText indent t) (treeTokens t)) :
    Splits (prettyItems indent items) (itemsTokens items) := by
  induction items with
  | nil => rw [prettyItems, itemsTokens]; exact splits_nil
  | cons item others ih =>
    obtain ⟨hitem, hothers⟩ := List.forall_mem_cons.mp h
    rw [prettyItems, itemsTokens, List.append_assoc, List.append_assoc]
    refine Splits.space ?_ (isSpace_newLine indent)
    -- the element is followed by a comma or by nothing at all, and a number ends at either
    refine hitem.append ?_ ((separates_comma others).append (separates_prettyItems indent others))
    exact (splits_comma others).append (ih hothers) (separates_prettyItems indent others)

/-- Entries on lines of their own are split in the same way: the key, a colon, the tokens of the
value, and a comma if more follows. -/
theorem splits_prettyEntries {entries : List (String × Tree)} (indent : Nat)
    (h : ∀ e ∈ entries, Splits (prettyText indent e.2) (treeTokens e.2)) :
    Splits (prettyEntries indent entries) (entriesTokens entries) := by
  induction entries with
  | nil => rw [prettyEntries, entriesTokens]; exact splits_nil
  | cons entry others ih =>
    obtain ⟨key, value⟩ := entry
    obtain ⟨hvalue, hothers⟩ := List.forall_mem_cons.mp h
    -- each part is split off at the mark that the next part begins with
    have hbehind : Splits ((if others.isEmpty then [] else [',']) ++ prettyEntries indent others)
        (commaTokens others.isEmpty ++ entriesTokens others) :=
      (splits_comma others).append (ih hothers) (separates_prettyEntries indent others)
    have hcontent : Splits ([' '] ++ (prettyText indent value ++
        ((if others.isEmpty then [] else [',']) ++ prettyEntries indent others)))
        (treeTokens value ++ (commaTokens others.isEmpty ++ entriesTokens others)) :=
      (hvalue.append hbehind ((separates_comma others).append
        (separates_prettyEntries indent others))).space (List.forall_mem_singleton.mpr rfl)
    have hcolon : Splits [':'] [.colon] := splits_mark (by decide) fun _ => rfl
    have hkey : Splits (stringText key.toList) [.leaf (.string (some key))] :=
      splits_leafText (v := .text key) trivial
    rw [prettyEntries, entriesTokens]
    simp only [List.append_assoc]
    refine Splits.space ?_ (isSpace_newLine indent)
    exact hkey.append (hcolon.append hcontent (separates_cons (by decide)))
      (separates_cons (by decide))

/-- Lines in a pair of brackets, the last of which stands on a line of its own. -/
theorem Splits.bracketed {first last : Char} {t t' : Token} (hfirst : Splits [first] [t])
    (hlast : Splits [last] [t']) {s : List Char} {ts : List Token} (h : Splits s ts)
    (hseparates : Separates s) (indent : Nat) :
    Splits (first :: s ++ newLine indent ++ [last]) (t :: (ts ++ [t'])) := by
  have hline : Splits (newLine indent ++ [last]) [t'] := hlast.space (isSpace_newLine indent)
  have hinside := h.append hline (separates_newLine indent _)
  rw [List.cons_append, List.cons_append, List.append_assoc]
  exact hfirst.append hinside (hseparates.append (separates_newLine indent _))

/-- **A written tree is split into its tokens**, whatever its indentation. White space between
tokens is passed over, and what follows is any text that cannot belong to a number. -/
theorem splits_prettyText {t : Tree} (h : t.LeavesAll Readable) (indent : Nat) :
    Splits (prettyText indent t) (treeTokens t) := by
  induction t using Tree.induct generalizing indent with
  | scalar v =>
    rw [prettyText, treeTokens]
    exact splits_leafText (Tree.leavesAll_scalar.mp h)
  | seq items ih =>
    have hopen : Splits ['['] [.openArray] := splits_mark (by decide) fun _ => rfl
    have hclose : Splits [']'] [.closeArray] := splits_mark (by decide) fun _ => rfl
    have hitems := splits_prettyItems (indent + 2)
      fun t ht => ih t ht (Tree.leavesAll_seq.mp h t ht) (indent + 2)
    rw [treeTokens]
    -- brackets around nothing are written without a line break between them
    cases items with
    | nil =>
      rw [prettyText, itemsTokens]
      exact hopen.append hclose (separates_cons (by decide))
    | cons item others =>
      rw [prettyText]
      exact hopen.bracketed hclose hitems (separates_prettyItems _ _) indent
  | map entries ih =>
    have hopen : Splits ['\x7b'] [.openObject] := splits_mark (by decide) fun _ => rfl
    have hclose : Splits ['\x7d'] [.closeObject] := splits_mark (by decide) fun _ => rfl
    -- the lines inside are indented further, so the claim is about every indentation
    have hentries := splits_prettyEntries (indent + 2)
      fun e he => ih e he (Tree.leavesAll_map.mp h e he) (indent + 2)
    rw [treeTokens]
    cases entries with
    | nil =>
      rw [prettyText, entriesTokens]
      exact hopen.append hclose (separates_cons (by decide))
    | cons entry others =>
      rw [prettyText]
      exact hopen.bracketed hclose hentries (separates_prettyEntries _ _) indent

/-! ## Grammar -/

/-- What may come next, and the containers that are open. -/
abbrev Stage := Expecting × List Container

/-- The tokens lead from one stage to another one and are turned into the events, whatever follows.
Like texts that are split, such tokens may be put behind each other. -/
def Leads (ts : List Token) (es : List (Document.Event Leaf)) (start stop : Stage) : Prop :=
  ∀ rest, eventsFrom? start.1 start.2 (ts ++ rest) = (eventsFrom? stop.1 stop.2 rest).map (es ++ ·)

/-- Tokens that lead from where others have led to go on from there. -/
theorem Leads.trans {ts ts' : List Token} {es es' : List (Document.Event Leaf)} {p q r : Stage}
    (h : Leads ts es p q) (h' : Leads ts' es' q r) : Leads (ts ++ ts') (es ++ es') p r := by
  intro rest
  rw [List.append_assoc, h (ts' ++ rest), h' rest]
  cases eventsFrom? r.1 r.2 rest <;> simp

/-- One token that is turned into one event. -/
theorem leads_event {t : Token} {e : Document.Event Leaf} {p q : Stage}
    (h : ∀ rest, eventsFrom? p.1 p.2 (t :: rest) = (eventsFrom? q.1 q.2 rest).map (e :: ·)) :
    Leads [t] [e] p q := h

/-- One token that is passed over. -/
theorem leads_mark {t : Token} {p q : Stage}
    (h : ∀ rest, eventsFrom? p.1 p.2 (t :: rest) = eventsFrom? q.1 q.2 rest) :
    Leads [t] [] p q := by
  intro rest
  rw [List.singleton_append, h]
  cases eventsFrom? q.1 q.2 rest <;> rfl

/-- Where a value may stand. -/
def Expecting.ForValue (e : Expecting) : Prop := e = .value ∨ e = .firstValue

/-- Elements and the end of their sequence. The first element stands where an end is allowed as
well, the others behind a comma. -/
theorem leads_items {items : List Tree} (cs : List Container)
    (h : ∀ t ∈ items, ∀ e : Expecting, e.ForValue →
      Leads (treeTokens t) (treeEvents writtenLeaf t) (e, .array :: cs) (.separator, .array :: cs))
    {e : Expecting} (he : e.ForValue) (hfirst : items = [] → e = .firstValue) :
    Leads (itemsTokens items ++ [.closeArray])
      (items.flatMap (treeEvents writtenLeaf) ++ [.closeSeq]) (e, .array :: cs)
      (.separator, cs) := by
  induction items generalizing e with
  | nil =>
    -- without elements the end stands where the first element might have stood
    rw [hfirst rfl, itemsTokens]
    exact leads_event fun rest => rfl
  | cons item others ih =>
    obtain ⟨hitem, hothers⟩ := List.forall_mem_cons.mp h
    rw [itemsTokens, List.flatMap_cons, List.append_assoc, List.append_assoc, List.append_assoc]
    refine (hitem e he).trans ?_
    -- behind an element the sequence ends, or a comma leads to the place of the next one
    cases others with
    | nil => exact leads_event fun rest => rfl
    | cons next others =>
      have hcomma : Leads [.comma] [] (.separator, .array :: cs) (.value, .array :: cs) :=
        leads_mark fun rest => rfl
      exact hcomma.trans (ih hothers (.inl rfl) (fun hnil => absurd hnil (List.cons_ne_nil _ _)))

/-- Entries and the end of their map. A key stands where an end is allowed as well or behind a
comma, and its value behind a colon. -/
theorem leads_entries {entries : List (String × Tree)} (cs : List Container)
    (h : ∀ entry ∈ entries, ∀ e : Expecting, e.ForValue →
      Leads (treeTokens entry.2) (treeEvents writtenLeaf entry.2) (e, .object :: cs)
        (.separator, .object :: cs))
    {e : Expecting} (he : e = .key ∨ e = .firstKey) (hfirst : entries = [] → e = .firstKey) :
    Leads (entriesTokens entries ++ [.closeObject])
      (entries.flatMap (entryEvents writtenLeaf) ++ [.closeMap]) (e, .object :: cs)
      (.separator, cs) := by
  induction entries generalizing e with
  | nil =>
    rw [hfirst rfl, entriesTokens]
    exact leads_event fun rest => rfl
  | cons entry others ih =>
    obtain ⟨key, value⟩ := entry
    obtain ⟨hvalue, hothers⟩ := List.forall_mem_cons.mp h
    have hkey : Leads [.leaf (.string (some key))] [.leaf (writtenLeaf (.text key))]
        (e, .object :: cs) (.colon, .object :: cs) := by
      rcases he with rfl | rfl
      · exact leads_event fun rest => rfl
      · exact leads_event fun rest => rfl
    have hcolon : Leads [.colon] [] (.colon, .object :: cs) (.value, .object :: cs) :=
      leads_mark fun rest => rfl
    -- a comma and the other entries follow, or the end of the map
    have hbehind : Leads (commaTokens others.isEmpty ++ (entriesTokens others ++ [.closeObject]))
        (others.flatMap (entryEvents writtenLeaf) ++ [.closeMap]) (.separator, .object :: cs)
        (.separator, cs) := by
      cases others with
      | nil => exact leads_event fun rest => rfl
      | cons next others =>
        have hcomma : Leads [.comma] [] (.separator, .object :: cs) (.key, .object :: cs) :=
          leads_mark fun rest => rfl
        exact hcomma.trans (ih hothers (.inl rfl) (fun hnil => absurd hnil (List.cons_ne_nil _ _)))
    have hentry := hkey.trans (hcolon.trans ((hvalue .value (.inl rfl)).trans hbehind))
    rw [entriesTokens, List.flatMap_cons]
    simpa only [entryEvents, List.append_assoc, List.cons_append, List.nil_append] using hentry

/-- **The tokens of a tree are turned into its events**, wherever a value may stand. The containers
that are open around it are the same before and behind it. -/
theorem leads_treeTokens (t : Tree) (cs : List Container) {e : Expecting} (he : e.ForValue) :
    Leads (treeTokens t) (treeEvents writtenLeaf t) (e, cs) (.separator, cs) := by
  -- for any containers and either place, since elements and entries stand in different ones
  induction t using Tree.induct generalizing cs e with
  -- a leaf is a value, wherever a value may stand
  | scalar v =>
    rw [treeTokens, treeEvents_scalar]
    rcases he with rfl | rfl
    · exact leads_event fun rest => rfl
    · exact leads_event fun rest => rfl
  | seq items ih =>
    have hopen : Leads [.openArray] [.openSeq false] (e, cs) (.firstValue, .array :: cs) := by
      rcases he with rfl | rfl
      · exact leads_event fun rest => rfl
      · exact leads_event fun rest => rfl
    rw [treeTokens, treeEvents_seq]
    exact hopen.trans (leads_items cs (fun t ht e he => ih t ht _ he) (.inr rfl) fun _ => rfl)
  | map entries ih =>
    have hopen : Leads [.openObject] [.openMap false] (e, cs) (.firstKey, .object :: cs) := by
      rcases he with rfl | rfl
      · exact leads_event fun rest => rfl
      · exact leads_event fun rest => rfl
    rw [treeTokens, treeEvents_map]
    exact hopen.trans
      (leads_entries cs (fun entry hentry e he => ih entry hentry _ he) (.inr rfl) fun _ => rfl)

/-- **A written text is a source of the events of its tree**, free of faults. -/
theorem source_render {t : Tree} (h : t.LeavesAll Readable) :
    source (render t) = ⟨treeEvents writtenLeaf t, [], false⟩ := by
  have htokens : tokens? (render t).toList = some (treeTokens t) := by
    rw [render, String.toList_ofList]
    exact (splits_prettyText h 0).tokens?
  have hevents : eventsFrom? .value [] (treeTokens t) = some (treeEvents writtenLeaf t) := by
    have hwhole := leads_treeTokens t [] (.inl rfl) []
    rw [List.append_nil] at hwhole
    rw [hwhole, eventsFrom?, Option.map_some, List.append_nil]
  rw [source, events?, htokens, Option.bind_some, hevents]

/-! ## Trees -/

/-- What is written comes back, whether it is read as a tree or where its kind is known. These are
the laws that reading documents is proved from, for any format. -/
theorem faithful : Faithful format writtenLeaf Readable where
  key _ := trivial
  scalar _ h := scalar?_writtenLeaf h
  text _ := rfl
  integer := integer?_writtenLeaf
  float _ h := float?_writtenLeaf h
  bool _ := rfl
  presence _ h := if_neg (writtenLeaf_ne_null h)

/-- **JSON texts lose nothing** of a tree without infinite numbers. -/
theorem readTree_of_render {t : Tree} (hdistinct : t.DistinctKeys) (hleaves : t.LeavesAll Readable)
    (hdepth : t.height ≤ 127) : readTree (render t) = .ok t :=
  (restores_tree faithful t).run (c := context (render t)) (source_render hleaves)
    ⟨hleaves, hdistinct⟩ hdepth

end ModelGraph.Json
