import ModelGraph.Resolution.Basic

/-!
# Flat names

A chain of names becomes one name: the names are joined by underscores, behind a prefix if it is
not empty. Different chains may have the same flat name, because names may have underscores of their
own. Where they have none, the chain can be read off its flat name.

- `flatName`: the flat name of a chain.
- `flatName_injective`: chains of plain names are told apart by their flat names.
- `prefix_of_flatName_eq`: what is named inside a chain has a chain that goes on from there.
-/

namespace ModelGraph

/-! ## Names under a prefix -/

/-- Under the empty prefix a name stays as it is. -/
theorem prefixed_empty (name : String) : prefixed "" name = name := rfl

/-- Under any other prefix it follows an underscore. -/
theorem prefixed_of_ne_empty {pre : String} (h : pre ≠ "") (name : String) :
    prefixed pre name = pre ++ "_" ++ name := by
  simp [prefixed, h]

/-- What follows a text that is not empty does not make it empty. -/
theorem append_ne_empty {s t : String} (h : s ≠ "") : s ++ t ≠ "" := by
  simp [h]

/-- A name that is not empty, or that stands under a prefix, stays one that is not empty. -/
theorem prefixed_ne_empty {pre name : String} (h : pre ≠ "" ∨ name ≠ "") :
    prefixed pre name ≠ "" := by
  by_cases hpre : pre = ""
  · rw [hpre, prefixed_empty]
    exact h.resolve_left fun hne => hne hpre
  · rw [prefixed_of_ne_empty hpre]
    exact append_ne_empty (append_ne_empty hpre)

/-! ## Chains of names -/

/-- The flat name of a chain of names under a prefix. -/
def flatName (pre : String) (names : List String) : String := names.foldl prefixed pre

/-- A chain begins with the name that is the prefix of the others. -/
theorem flatName_cons (pre name : String) (names : List String) :
    flatName pre (name :: names) = flatName (prefixed pre name) names := rfl

/-- Under a prefix that is not empty no flat name is empty. -/
theorem flatName_ne_empty {pre : String} (hpre : pre ≠ "") (names : List String) :
    flatName pre names ≠ "" := by
  induction names generalizing pre with
  | nil => exact hpre
  | cons name names ih => exact ih (prefixed_ne_empty (.inl hpre))

/-- The characters of some names, with an underscore before each of the names. -/
def underscored (names : List String) : List Char := names.flatMap fun name => '_' :: name.toList

/-- The first name comes first, behind an underscore. -/
theorem underscored_cons (name : String) (names : List String) :
    underscored (name :: names) = '_' :: name.toList ++ underscored names := by
  simp [underscored]

/-- Chains may be put behind each other. -/
theorem underscored_append (names names' : List String) :
    underscored (names ++ names') = underscored names ++ underscored names' := by
  simp [underscored]

/-- Nothing follows, or what follows starts with an underscore. So a name without underscores that
stands in front of it ends where it does. -/
def Separated (cs : List Char) : Prop := ∀ c ∈ cs.head?, c = '_'

/-- The names of a chain are separated from what stands in front of them. -/
theorem separated_underscored (names : List String) : Separated (underscored names) := by
  cases names with
  | nil => simp [Separated, underscored]
  | cons name names => simp [Separated, underscored_cons]

/-- What starts with an underscore is separated. -/
theorem separated_cons (cs : List Char) : Separated ('_' :: cs) := by simp [Separated]

/-- What has no underscore ends where the first one stands. So the first name of a flat name can be
told from the others. -/
theorem append_separated {cs ds us vs : List Char} (hcs : '_' ∉ cs) (hds : '_' ∉ ds)
    (hus : Separated us) (hvs : Separated vs) (h : cs ++ us = ds ++ vs) : cs = ds ∧ us = vs := by
  induction cs generalizing ds with
  | nil =>
    cases ds with
    | nil => exact ⟨rfl, h⟩
    | cons d ds =>
      -- `us` would start with a character of `ds`, and `ds` has no underscore
      have hd : d = '_' := hus d (by rw [show us = d :: ds ++ vs from h]; simp)
      exact absurd (hd ▸ List.mem_cons_self) hds
  | cons c cs ih =>
    cases ds with
    | nil =>
      have hc : c = '_' := hvs c (by rw [show vs = c :: cs ++ us from h.symm]; simp)
      exact absurd (hc ▸ List.mem_cons_self) hcs
    | cons d ds =>
      obtain ⟨rfl, hrest⟩ := List.cons_eq_cons.mp h
      obtain ⟨rfl, rfl⟩ := ih (List.not_mem_of_not_mem_cons hcs) (List.not_mem_of_not_mem_cons hds)
        hrest
      exact ⟨rfl, rfl⟩

/-! ## Plain names -/

/-- A name that is not empty and has no underscore. Where all names are plain, flat names are as
good as chains. -/
def PlainName (name : String) : Prop := name ≠ "" ∧ '_' ∉ name.toList

/-- Names without underscores can be read off from where they start. By induction on the names, with
the first of them told from what follows. -/
theorem underscored_eq_append {names names' : List String} {rest : List Char}
    (h : ∀ name ∈ names, PlainName name) (h' : ∀ name ∈ names', PlainName name)
    (hrest : Separated rest) (heq : underscored names ++ rest = underscored names') :
    ∃ more, names' = names ++ more ∧ underscored more = rest := by
  induction names generalizing names' with
  | nil => exact ⟨names', rfl, heq.symm⟩
  | cons name names ih =>
    cases names' with
    | nil => simp [underscored] at heq
    | cons name' names' =>
      rw [underscored_cons, underscored_cons, List.append_assoc] at heq
      have hseparated : Separated (underscored names ++ rest) := by
        cases names with
        | nil => exact hrest
        | cons _ _ =>
          rw [underscored_cons]
          exact separated_cons _
      -- both first names end where the next underscore stands
      obtain ⟨hname, hnames⟩ := append_separated (h _ List.mem_cons_self).2
        (h' _ List.mem_cons_self).2 hseparated (separated_underscored names') (List.cons.inj heq).2
      obtain ⟨more, rfl, hmore⟩ := ih (fun n hn => h n (List.mem_cons_of_mem _ hn))
        (fun n hn => h' n (List.mem_cons_of_mem _ hn)) hnames
      exact ⟨more, by rw [String.toList_inj.mp hname, List.cons_append], hmore⟩

/-- A flat name under a prefix that is not empty is the prefix and the names, with underscores
between them. -/
private theorem cons_flatName {pre : String} (hpre : pre ≠ "") (names : List String) :
    '_' :: (flatName pre names).toList = underscored (pre :: names) := by
  -- the prefix grows by a name in each step, so the claim is about all prefixes that are not empty
  induction names generalizing pre with
  | nil => simp [flatName, underscored]
  | cons name names ih =>
    rw [flatName_cons, ih (prefixed_ne_empty (.inl hpre)), prefixed_of_ne_empty hpre]
    simp [underscored]

/-- The names that stand before all others under a prefix. -/
private def leading (pre : String) : List String := if pre = "" then [] else [pre]

/-- The same for every prefix. The empty prefix is left out, so it takes a name of the chain to have
something in front of the first underscore. -/
private theorem underscored_leading (pre : String) {names : List String} (hne : names ≠ [])
    (h : ∀ name ∈ names, PlainName name) :
    underscored (leading pre) ++ underscored names = '_' :: (flatName pre names).toList := by
  rw [← underscored_append]
  by_cases hpre : pre = ""
  · -- the first name leads, because the empty prefix is left out
    cases names with
    | nil => exact absurd rfl hne
    | cons name names =>
      rw [hpre, flatName_cons, prefixed_empty, cons_flatName (h name List.mem_cons_self).1]
      rfl
  · rw [cons_flatName hpre, leading, if_neg hpre]
    rfl

/-- Chains of plain names are told apart by their flat names. This is why actuators with different
chains have nodes of their own where names have no underscores. -/
theorem flatName_injective {pre : String} {names names' : List String} (hne : names ≠ [])
    (hne' : names' ≠ []) (h : ∀ name ∈ names, PlainName name)
    (h' : ∀ name ∈ names', PlainName name) (heq : flatName pre names = flatName pre names') :
    names = names' := by
  have hsame := underscored_leading pre hne h
  rw [heq, ← underscored_leading pre hne' h', List.append_cancel_left_eq] at hsame
  have hnothing : underscored names ++ [] = underscored names' := by rw [List.append_nil, hsame]
  obtain ⟨more, rfl, hmore⟩ := underscored_eq_append h h' (by simp [Separated]) hnothing
  cases more with
  | nil => rw [List.append_nil]
  | cons _ _ => simp [underscored] at hmore

/-- What is named inside a chain of plain names has a flat name that only a longer chain can
have. -/
theorem prefix_of_flatName_eq {pre name : String} {names names' : List String} (hne' : names' ≠ [])
    (h : ∀ name ∈ names, PlainName name) (h' : ∀ name ∈ names', PlainName name)
    (heq : prefixed (flatName pre names) name = flatName pre names') :
    ∃ more, more ≠ [] ∧ names' = names ++ more := by
  cases names with
  | nil => exact ⟨names', hne', rfl⟩
  | cons first names =>
    have hflat : flatName pre (first :: names) ≠ "" :=
      flatName_ne_empty (prefixed_ne_empty (.inr (h first List.mem_cons_self).1)) names
    have hchars : underscored (first :: names) ++ '_' :: name.toList = underscored names' := by
      -- behind what leads both of them, the flat names are the same characters
      have hlong := underscored_leading pre hne' h'
      have hshort := underscored_leading pre (List.cons_ne_nil first names) h
      rw [← heq, prefixed_of_ne_empty hflat] at hlong
      have hjoined : underscored (leading pre) ++ underscored names' =
          underscored (leading pre) ++ (underscored (first :: names) ++ '_' :: name.toList) := by
        rw [hlong, ← List.append_assoc, hshort]
        simp
      exact (List.append_cancel_left hjoined).symm
    obtain ⟨more, hmore, hrest⟩ := underscored_eq_append h h' (separated_cons _) hchars
    refine ⟨more, ?_, hmore⟩
    rintro rfl
    cases hrest

/-! ## Names in fragments -/

/-- An entry without a name is not read as a node. -/
theorem Fragment.name_of_node? {entry : Tree} {x : FragmentNode} (h : node? entry = some x) :
    x.name ≠ "" := by
  simp only [node?] at h
  split at h
  · cases h
  · rename_i hname
    cases h
    simpa using hname

/-- The nodes of the fragment of a document have names. -/
theorem Fragment.name_ne_empty {document : Tree} {x : FragmentNode}
    (hx : x ∈ (Fragment.ofDocument document).nodes) : x.name ≠ "" := by
  -- nodes of the components are the only ones there are, and one without a name is not read
  have hnodes : ∀ components, x ∈ nodesOf components → x.name ≠ "" := by
    intro components hmem
    unfold nodesOf at hmem
    split at hmem
    · obtain ⟨entry, -, hentry⟩ := List.mem_filterMap.mp hmem
      exact name_of_node? hentry
    · cases hmem
  have hparts : ∀ components mechanics, x ∈ (ofParts components mechanics).nodes →
      x.name ≠ "" := by
    intro components mechanics hmem
    cases components with
    | none => cases hmem
    | some components => exact hnodes components hmem
  unfold ofDocument at hx
  split at hx <;> exact hparts _ _ hx

end ModelGraph
