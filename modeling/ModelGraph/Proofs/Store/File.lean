import Mathlib.Data.List.Find
import ModelGraph.Proofs.FileTree.Lookup
import ModelGraph.Proofs.Yaml.RoundTrip
import ModelGraph.Store.File

/-!
# Stores on files as maps

A store on files answers with the definition that was stored last in the file of an identity. So it
is a map from the files of identities to definitions: identities that share a file share their
definition, and identities whose domain or name leads up or nowhere have no file of their own.

- `ModelStore.after`, `ModelStore.stored`: a series of calls, and what it has stored.
- `lastStored`: the definition that was stored last under an identity.
- `FileStore.namesOf`: the names that lead from the root of a store to the file of an identity.
- `FileStore.put_cases`: what storing does to the files.
- `FileStore.Filed`: the files below the root are those of the stored definitions; `Filed.put`,
  `filed_after`.
- `FileStore.fetch_after`: what is fetched after any series of calls.
-/

namespace ModelGraph

/-! ## Series of calls -/

/-- A call on a store. -/
inductive StoreCall where
  | fetch (id : ComponentId)
  | put (definition : Tree)

namespace ModelStore

variable {σ : Type} [ModelStore σ]

/-- The store after a call. -/
def call (s : σ) : StoreCall → σ
  | .fetch id => (fetch s id).2
  | .put definition => (put s definition).2

/-- The store after a series of calls, in which fetching and storing may come in any order. -/
def after (s : σ) (calls : List StoreCall) : σ := calls.foldl call s

/-- The definitions that a series of calls stores, in their order. One that is refused, or cannot be
stored, is none of them. It is the history that the store is compared with, since the files do not
show in which order they were written. -/
def stored (s : σ) : List StoreCall → List Tree
  | [] => []
  | .fetch id :: rest => stored (call s (.fetch id)) rest
  | .put definition :: rest =>
    (if (put s definition).1.isOk then [definition] else []) ++
      stored (call s (.put definition)) rest

end ModelStore

/-! ## Identities -/

/-- An identity with its domain in lower case. Stores do not tell apart what is the same in this
form. -/
def ComponentId.folded (id : ComponentId) : ComponentId :=
  { id with domain := Text.toLower id.domain }

/-- The last one of some definitions whose identity is of a kind. The kind may be that of all
identities with one file, or of all those that are not told apart. -/
def lastStored (isOf : ComponentId → Bool) (log : List Tree) : Option Tree :=
  log.reverse.find? fun definition => (ComponentId.ofDefinition definition).toOption.any isOf

section LastStored

variable {isOf isOf' : ComponentId → Bool} {log : List Tree} {definition : Tree} {id : ComponentId}

/-- The definition that is stored next is the last one of its kind. It changes nothing for
identities of another kind. -/
theorem lastStored_concat (h : ComponentId.ofDefinition definition = .ok id) :
    lastStored isOf (log ++ [definition]) =
      if isOf id then some definition else lastStored isOf log := by
  rw [lastStored, List.reverse_concat, List.find?_cons, h]
  change (match isOf id with
    | true => some definition
    | false => lastStored isOf log) = _
  cases isOf id <;> rfl

/-- The last definition stored is one of those stored. -/
theorem mem_of_lastStored (h : lastStored isOf log = some definition) : definition ∈ log :=
  List.mem_reverse.mp (List.mem_of_find?_eq_some h)

/-- Only the identities of the definitions matter. -/
theorem lastStored_congr (h : ∀ definition ∈ log, ∀ id,
    ComponentId.ofDefinition definition = .ok id → isOf id = isOf' id) :
    lastStored isOf log = lastStored isOf' log := by
  refine List.find?_congr fun definition hmem => ?_
  cases hid : ComponentId.ofDefinition definition with
  | error e => rfl
  | ok id => exact h definition (List.mem_reverse.mp hmem) id hid

end LastStored

namespace FileStore

variable {root : String} {home : List String} {id id' : ComponentId}

/-! ## Files of identities -/

/-- The names that lead from the root of a store to the file of an identity. Two identities have the
same file if and only if they have the same names, as long as they lead down. -/
def namesOf (id : ComponentId) : List String :=
  [fileComponent (Text.toLower id.domain), fileComponent id.name,
   fileComponent id.version ++ ".yml"]

/-- The domain and the name of an identity lead down from the root of a store: they are neither
empty nor dots. The version needs no such condition, since the name of the file ends differently. -/
def LeadsDown (id : ComponentId) : Prop :=
  Path.Plain (fileComponent (Text.toLower id.domain)) ∧ Path.Plain (fileComponent id.name)

instance (id : ComponentId) : Decidable (LeadsDown id) := by
  unfold LeadsDown
  infer_instance

/-- A slash in a text has been replaced in the name of its file. -/
theorem noSlash_fileComponent (part : String) : '/' ∉ (fileComponent part).toList := by
  rw [fileComponent, String.toList_ofList]
  intro hmem
  obtain ⟨c, -, hc⟩ := List.mem_map.mp hmem
  split at hc
  · exact absurd hc (by decide)
  · rename_i hother
    simp [hc] at hother

/-- The name of the file is never empty and never dots, whatever the version is. -/
theorem plain_fileName (version : String) : Path.Plain (fileComponent version ++ ".yml") :=
  Path.plain_append (noSlash_fileComponent version) (by decide) (by decide)

/-- The path of an identity ends in the name of a file. -/
theorem endsInName_pathOf (root : String) (id : ComponentId) : Path.EndsInName (pathOf root id) :=
  Path.endsInName_join _ (plain_fileName id.version)

/-- Identities with the same file have the same path. -/
theorem pathOf_congr (h : namesOf id = namesOf id') : pathOf root id = pathOf root id' := by
  obtain ⟨hdomain, h⟩ := List.cons.inj h
  obtain ⟨hname, h⟩ := List.cons.inj h
  rw [pathOf, pathOf, hdomain, hname, (List.cons.inj h).1]

/-- Identities with the same file lead down together. -/
theorem leadsDown_congr (h : namesOf id = namesOf id') : LeadsDown id ↔ LeadsDown id' := by
  obtain ⟨hdomain, h⟩ := List.cons.inj h
  rw [LeadsDown, LeadsDown, hdomain, (List.cons.inj h).1]

/-- Nothing in a text has to be replaced in the name of a file. Colons, slashes and backslashes all
become underscores, so where there is none of them, the text can be told from its file. -/
def Portable (part : String) : Prop := ∀ c ∈ part.toList, c ≠ ':' ∧ c ≠ '/' ∧ c ≠ '\\'

/-- A text in which nothing has to be replaced is its own name of a file. -/
theorem fileComponent_of_portable {part : String} (h : Portable part) :
    fileComponent part = part := by
  rw [fileComponent, List.map_congr_left (g := id) fun c hc => by simp [h c hc], List.map_id,
    String.ofList_toList]

/-- Identities in which nothing has to be replaced share a file only if a store does not tell them
apart. -/
theorem folded_eq_of_namesOf_eq
    (h : ∀ part ∈ [Text.toLower id.domain, id.name, id.version], Portable part)
    (h' : ∀ part ∈ [Text.toLower id'.domain, id'.name, id'.version], Portable part)
    (hnames : namesOf id' = namesOf id) : id'.folded = id.folded := by
  simp only [List.forall_mem_cons] at h h'
  rw [namesOf, namesOf, fileComponent_of_portable h.1, fileComponent_of_portable h.2.1,
    fileComponent_of_portable h.2.2.1, fileComponent_of_portable h'.1,
    fileComponent_of_portable h'.2.1, fileComponent_of_portable h'.2.2.1] at hnames
  -- the names are the texts themselves, and those of the versions have the same ending
  obtain ⟨hdomain, hrest⟩ := List.cons.inj hnames
  obtain ⟨hname, hrest⟩ := List.cons.inj hrest
  have hversion : id'.version = id.version := (String.append_left_inj _).mp (List.cons.inj hrest).1
  rw [ComponentId.folded, ComponentId.folded, hdomain, hname, hversion]

/-- Identities that a store does not tell apart have the same file. -/
theorem namesOf_of_folded_eq (h : id'.folded = id.folded) : namesOf id' = namesOf id := by
  injection h with hdomain hname hversion
  rw [namesOf, namesOf, hdomain, hname, hversion]

/-- An identity that leads down has its file below the root of the store, at its three names. -/
theorem place_pathOf (h : LeadsDown id) :
    Path.place home (pathOf root id) = Path.place home root ++ namesOf id := by
  rw [pathOf, Path.place_join home _ (plain_fileName id.version), Path.place_join home _ h.2,
    Path.place_join home _ h.1, List.append_assoc, List.append_assoc]
  rfl

/-- The names of the path of any identity: those of the root, and three pieces of which the idle
ones are dropped. -/
theorem names_pathOf (root : String) (id : ComponentId) :
    Path.names (pathOf root id) =
      Path.names root ++ (namesOf id).filter (fun piece => !Path.isIdle piece) := by
  rw [pathOf, Path.names_join_part _ (plain_fileName id.version).noSlash,
    Path.names_join_part _ (noSlash_fileComponent id.name),
    Path.names_join_part _ (noSlash_fileComponent (Text.toLower id.domain)), List.append_assoc,
    List.append_assoc, ← List.filter_append, ← List.filter_append]
  rfl

/-- The path of an identity begins where the root does. -/
theorem isAbsolute_pathOf (root : String) (id : ComponentId) :
    Path.isAbsolute (pathOf root id) = Path.isAbsolute root := by
  rw [pathOf, Path.isAbsolute_join _ (plain_fileName id.version).noSlash,
    Path.isAbsolute_join _ (noSlash_fileComponent id.name),
    Path.isAbsolute_join _ (noSlash_fileComponent (Text.toLower id.domain))]

/-- The names of the path without the last one: those of the root, and at most two. -/
theorem dropLast_names_pathOf (root : String) (id : ComponentId) : ∃ inner : List String,
    (Path.names (pathOf root id)).dropLast = Path.names root ++ inner ∧ inner.length ≤ 2 := by
  have hfile : [fileComponent id.version ++ ".yml"].filter (fun piece => !Path.isIdle piece) =
      [fileComponent id.version ++ ".yml"] := by
    simp [(plain_fileName id.version).isIdle]
  have hsplit : namesOf id = [fileComponent (Text.toLower id.domain), fileComponent id.name] ++
    [fileComponent id.version ++ ".yml"] := rfl
  refine ⟨_, ?_, List.length_filter_le (fun piece => !Path.isIdle piece)
    [fileComponent (Text.toLower id.domain), fileComponent id.name]⟩
  rw [names_pathOf, hsplit, List.filter_append, hfile, ← List.append_assoc, List.dropLast_concat]

/-- Where the path of an identity leads from the root of the store. -/
theorem place_pathOf_eq (home : List String) (root : String) (id : ComponentId) :
    Path.place home (pathOf root id) =
      ((namesOf id).filter fun piece => !Path.isIdle piece).foldl Path.follow
        (Path.place home root) := by
  rw [Path.place, isAbsolute_pathOf, names_pathOf, List.foldl_append]
  rfl

/-- Of the pieces of an identity that does not lead down at most two lead down. They are three, and
the domain or the name is among those that lead nowhere or up. -/
theorem countP_namesOf_le (h : ¬ LeadsDown id) :
    ((namesOf id).filter fun piece => !Path.isIdle piece).countP (· ≠ "..") ≤ 2 := by
  have hplain : ∀ piece : String, '/' ∉ piece.toList → ¬ Path.Plain piece →
      (decide (piece ≠ "..") && !Path.isIdle piece) = false := by
    intro piece hslash hpiece
    rw [Path.plain_iff hslash] at hpiece
    simpa [and_comm] using hpiece
  rw [List.countP_filter, namesOf, List.countP_cons, List.countP_cons, List.countP_cons,
    List.countP_nil]
  -- the domain or the name is two dots or carries no meaning, so it leads no further down
  rcases Decidable.not_and_iff_not_or_not.mp h with hdomain | hname
  · rw [hplain _ (noSlash_fileComponent _) hdomain, if_neg Bool.false_ne_true]
    split <;> split <;> omega
  · rw [hplain _ (noSlash_fileComponent _) hname, if_neg Bool.false_ne_true]
    split <;> split <;> omega

/-- An identity that does not lead down has its file elsewhere, less than three names below the root
of the store. -/
theorem place_pathOf_ne (h : ¬ LeadsDown id) (a b c : String) :
    Path.place home (pathOf root id) ≠ Path.place home root ++ [a, b, c] := by
  intro heq
  have hle := Path.length_foldl_follow_le
    ((namesOf id).filter fun piece => !Path.isIdle piece) (Path.place home root)
  rw [← place_pathOf_eq, heq, List.length_append] at hle
  -- of the three pieces one leads nowhere or up, so the place is less deep than this one
  have hcount := countP_namesOf_le h
  have hthree : [a, b, c].length = 3 := rfl
  omega

/-! ## Roots -/

/-- The way to the root of a store does not lead through places below the root. Otherwise making the
directories on this way might put one where a definition is to be. -/
def Direct (home : List String) (root : String) : Prop :=
  ∀ pieces, pieces <+: Path.names root → ∀ below,
    pieces.foldl Path.follow (if Path.isAbsolute root then [] else home) =
      Path.place home root ++ below → below = []

/-- A path without two dots is direct. -/
theorem direct_of_down (home : List String) (h : ".." ∉ Path.segments root) : Direct home root := by
  intro pieces hpieces below heq
  have hdown : ∀ piece ∈ pieces, piece ≠ ".." := fun piece hpiece hdots =>
    h (hdots ▸ (List.mem_filter.mp (hpieces.subset hpiece)).1)
  -- the pieces of a part of the way are too few to lead below its end
  have hle := Path.length_foldl_follow_le pieces (if Path.isAbsolute root then [] else home)
  have hcount := List.countP_le_length (p := (· ≠ "..")) (l := pieces)
  have hbegins := hpieces.length_le
  rw [heq, Path.place_of_down h, List.length_append, List.length_append] at hle
  exact List.eq_nil_of_length_eq_zero (by omega)

/-- No directory that is made for the file of an identity stands where there may be a definition. A
definition stands three names below the root, and what is above a file is less deep. -/
theorem place_above_ne (hdirect : Direct home root) {above : String}
    (hnames : Path.names above <+: (Path.names (pathOf root id)).dropLast)
    (habsolute : Path.isAbsolute above = Path.isAbsolute (pathOf root id)) (a b c : String) :
    Path.place home above ≠ Path.place home root ++ [a, b, c] := by
  intro heq
  rw [isAbsolute_pathOf] at habsolute
  have hplace : Path.place home above = (Path.names above).foldl Path.follow
      (if Path.isAbsolute root then [] else home) := by rw [Path.place, habsolute]
  obtain ⟨inner, hinner, htwo⟩ := dropLast_names_pathOf root id
  rw [hinner] at hnames
  rcases List.prefix_or_prefix_of_prefix hnames (List.prefix_append _ _) with hroot | hroot
  · -- on the way to the root
    exact absurd (hdirect _ hroot _ (hplace ▸ heq)) (List.cons_ne_nil _ _)
  · -- behind the root: two pieces at most, and these do not lead three names down
    obtain ⟨rest, hrest⟩ := hroot
    rw [← hrest] at hnames hplace
    have hle := Path.length_foldl_follow_le rest (Path.place home root)
    have hcount := List.countP_le_length (p := (· ≠ "..")) (l := rest)
    have hlength := ((List.prefix_append_right_inj _).mp hnames).length_le
    rw [List.foldl_append] at hplace
    change _ = rest.foldl Path.follow (Path.place home root) at hplace
    rw [← hplace, heq, List.length_append] at hle
    have hthree : [a, b, c].length = 3 := rfl
    omega

/-! ## Storing -/

/-- Neither directories nor other files than definitions come to stand three names below the root.
This is where the definitions of identities that lead down are, so none of them is changed. -/
def Shallow (home : List String) (root : String) (place : List String) : Prop :=
  ∀ a b c, place ≠ Path.place home root ++ [a, b, c]

/-- What storing a definition does. It is refused, and at most directories have been made for its
file, or it is written to its file after that. -/
theorem put_cases {s : FileStore} (hdirect : Direct s.files.home s.root) (definition : Tree) :
    ((put s definition).1.isOk = false ∧ ∃ files,
      s.files.Grown (Shallow s.files.home s.root) files ∧
      (put s definition).2 = { s with files }) ∨
    ∃ id made files, ComponentId.ofDefinition definition = .ok id ∧
      s.files.Grown (Shallow s.files.home s.root) made ∧
      made.write (pathOf s.root id) (Yaml.render definition) = .ok files ∧
      put s definition = (.ok (), { s with files }) := by
  unfold put
  cases hid : ComponentId.ofDefinition definition with
  | error e => exact .inl ⟨rfl, s.files, .refl _, rfl⟩
  | ok id =>
    -- directories are made above the file of the definition only
    have hgrown : s.files.Grown (Shallow s.files.home s.root)
        (s.files.makeParent (pathOf s.root id)).2 :=
      s.files.makeParent_grown _ fun _ hnames habsolute =>
        place_above_ne hdirect hnames habsolute
    dsimp only
    -- the directories cannot be made, or the file cannot be written, or all of it is done
    rcases hmade : s.files.makeParent (pathOf s.root id) with ⟨_ | _, made⟩ <;> rw [hmade] at hgrown
    · exact .inl ⟨rfl, made, hgrown, rfl⟩
    · dsimp only [FileTree.writeYaml]
      cases hwrite : made.write (pathOf s.root id) (Yaml.render definition) with
      | error fault => exact .inl ⟨rfl, made, hgrown, rfl⟩
      | ok files => exact .inr ⟨id, made, files, rfl, hgrown, hwrite, rfl⟩

/-- An identity has the same file as another. -/
def sharesFile (id id' : ComponentId) : Bool := namesOf id' == namesOf id

/-- The test decides whether the names are the same. -/
theorem sharesFile_iff : sharesFile id id' = true ↔ namesOf id' = namesOf id := beq_iff_eq

/-- The files of a store after it has taken in some definitions, against the files with which it
began: every identity that leads down has the file of the definition that was stored last for it,
and if no identity leads elsewhere, nothing has changed outside the root. -/
structure Filed (s : FileStore) (log : List Tree) (s' : FileStore) : Prop where
  root : s'.root = s.root
  home : s'.files.home = s.files.home
  entry : ∀ id, LeadsDown id → s'.files.entry? (Path.place s.files.home s.root ++ namesOf id) =
    (lastStored (sharesFile id) log).map (FileEntry.file ∘ Yaml.render)
  reaches : ∀ id definition, LeadsDown id → lastStored (sharesFile id) log = some definition →
    s'.files.Reaches (pathOf s.root id)
  outside : (∀ definition ∈ log, ∀ id, ComponentId.ofDefinition definition = .ok id →
    LeadsDown id) → ∀ p, ¬ Path.place s.files.home s.root <+: p → ∀ text,
    s'.files.entry? p = some (.file text) ↔ s.files.entry? p = some (.file text)

namespace Filed

variable {s s' : FileStore} {log : List Tree} {definition : Tree} {files : FileTree}

/-- Directories that are made for a file change nothing. -/
theorem grown (h : Filed s log s')
    (hgrown : s'.files.Grown (Shallow s.files.home s.root) files) :
    Filed s log { s' with files } where
  root := h.root
  home := hgrown.home.trans h.home
  entry id hdown := by
    rw [← h.entry id hdown]
    exact hgrown.entry?_eq fun hmay => hmay _ _ _ rfl
  reaches id definition hdown hlast := hgrown.reaches (h.reaches id definition hdown hlast)
  outside hdown p hp text := hgrown.file_iff.trans (h.outside hdown p hp text)

/-- A file that is written is that of its identity alone. -/
theorem write (h : Filed s log s') (hid : ComponentId.ofDefinition definition = .ok id)
    (hwrite : s'.files.write (pathOf s.root id) (Yaml.render definition) = .ok files) :
    Filed s (log ++ [definition]) { s' with files } := by
  obtain ⟨hname, hsame, hread⟩ := FileTree.write_spec hwrite
  obtain ⟨hreaches, hentry⟩ := (FileTree.read_eq_ok_iff hname).mp hread
  rw [hsame.home, h.home] at hentry
  rw [h.home] at hsame
  refine ⟨h.root, hsame.home.trans h.home, fun other hdown => ?_, fun other _ hdown hlast => ?_,
    fun hall p hp text => ?_⟩
  · rw [lastStored_concat hid]
    by_cases hshare : namesOf id = namesOf other
    · rw [if_pos (sharesFile_iff.mpr hshare), ← hshare,
        ← place_pathOf ((leadsDown_congr hshare).mpr hdown)]
      exact hentry
    · rw [if_neg (mt sharesFile_iff.mp hshare), ← h.entry other hdown]
      refine hsame.entries _ fun hplace => ?_
      rw [List.mem_singleton] at hplace
      -- an identity that leads down has its own names, and any other has no place like these
      by_cases hdown' : LeadsDown id
      · rw [place_pathOf hdown'] at hplace
        exact hshare (List.append_cancel_left hplace).symm
      · exact place_pathOf_ne hdown' _ _ _ hplace.symm
  · rw [lastStored_concat hid] at hlast
    by_cases hshare : namesOf id = namesOf other
    · exact pathOf_congr hshare ▸ hreaches
    · rw [if_neg (mt sharesFile_iff.mp hshare)] at hlast
      exact hsame.reaches_iff.mpr (h.reaches other _ hdown hlast)
  · have hdown := hall definition (by simp) id hid
    have hother : p ∉ [Path.place s.files.home (pathOf s.root id)] := fun hplace => hp <| by
      rw [List.mem_singleton.mp hplace, place_pathOf hdown]
      exact List.prefix_append _ _
    rw [← h.outside (fun d hd => hall d (List.mem_append_left _ hd)) p hp text]
    exact Eq.to_iff (congrArg (· = _) (hsame.entries p hother))

/-- Storing keeps the files those of the stored definitions. -/
theorem put (h : Filed s log s') (hdirect : Direct s.files.home s.root) (definition : Tree) :
    Filed s (log ++ if (FileStore.put s' definition).1.isOk then [definition] else [])
      (FileStore.put s' definition).2 := by
  have hdirect' : Direct s'.files.home s'.root := by rwa [h.home, h.root]
  rcases put_cases hdirect' definition with
    ⟨hrefused, files, hgrown, heq⟩ | ⟨id, made, files, hid, hgrown, hwrite, heq⟩
  -- nothing is stored by a call that is refused, but directories may have been made
  · rw [h.home, h.root] at hgrown
    rw [hrefused, if_neg Bool.false_ne_true, List.append_nil, heq]
    exact h.grown hgrown
  · rw [h.home, h.root] at hgrown
    rw [h.root] at hwrite
    rw [heq]
    exact (h.grown hgrown).write hid hwrite

/-- What is fetched for an identity that has not been stored. -/
theorem fetch_none (h : Filed s log s') (hdown : LeadsDown id)
    (hlast : lastStored (sharesFile id) log = none) : s'.fetch id = .ok Tree.emptyMap := by
  have hentry := h.entry id hdown
  rw [hlast, ← place_pathOf hdown, ← h.home, ← h.root] at hentry
  -- no entry stands at the place of the file, so it is not there
  have hmissing : s'.files.contains (pathOf s'.root id) = false := by
    refine Bool.eq_false_iff.mpr fun hcontains => ?_
    obtain ⟨-, e, he⟩ := (FileTree.contains_iff (endsInName_pathOf _ _)).mp hcontains
    rw [hentry] at he
    cases he
  rw [fetch, hmissing]
  rfl

/-- What is fetched for an identity that has been stored, if the text of the definition can be read
back. -/
theorem fetch_some (h : Filed s log s') (hdown : LeadsDown id)
    (hlast : lastStored (sharesFile id) log = some definition)
    (hreads : Yaml.readTree (Yaml.render definition) = .ok definition) :
    s'.fetch id = .ok definition := by
  have hentry := h.entry id hdown
  have hreaches := h.reaches id definition hdown hlast
  rw [hlast, ← place_pathOf hdown, ← h.home, ← h.root] at hentry
  rw [← h.root] at hreaches
  have hname := endsInName_pathOf s'.root id
  have hcontains : s'.files.contains (pathOf s'.root id) = true :=
    (FileTree.contains_iff hname).mpr ⟨hreaches, _, hentry⟩
  -- the path leads to the place of the identity, which holds the text stored last
  have hread : s'.files.read (pathOf s'.root id) = .ok (Yaml.render definition) :=
    (FileTree.read_eq_ok_iff hname).mpr ⟨hreaches, hentry⟩
  simp only [fetch, hcontains, FileTree.readYaml, hread, hreads, if_true]

end Filed

/-! ## Series of calls -/

/-- A store whose root is empty or not there yet, so that all its files are written by the calls. -/
structure Fresh (s : FileStore) : Prop where
  nothing : ∀ below, below ≠ [] → s.files.entry? (Path.place s.files.home s.root ++ below) = none
  direct : Direct s.files.home s.root

/-- Before the first call nothing has been stored. -/
theorem Fresh.filed {s : FileStore} (h : s.Fresh) : Filed s [] s where
  root := rfl
  home := rfl
  entry _ _ := h.nothing _ (List.cons_ne_nil _ _)
  reaches := nofun
  outside _ _ _ _ := Iff.rfl

/-- After any series of calls the files are those of the stored definitions. Fetching changes
nothing, and the log grows by what storing has accepted. -/
theorem Filed.after {s : FileStore} (hdirect : Direct s.files.home s.root)
    (calls : List StoreCall) :
    ∀ {s' : FileStore} {log : List Tree}, Filed s log s' →
      Filed s (log ++ ModelStore.stored s' calls) (ModelStore.after s' calls) := by
  induction calls with
  | nil =>
    intro s' log h
    rwa [ModelStore.stored, List.append_nil]
  | cons first rest ih =>
    intro s' log h
    -- fetching changes nothing, and storing is one step
    cases first with
    | fetch id => exact ih h
    | put definition =>
      rw [ModelStore.stored, ← List.append_assoc]
      exact ih (h.put hdirect definition)

/-- What is fetched for an identity that leads down: the definition that was stored last in its
file, or the definition without entries. -/
theorem Filed.fetch {s s' : FileStore} {log : List Tree} (h : Filed s log s') (hdown : LeadsDown id)
    (hreads : ∀ definition ∈ log, Yaml.readTree (Yaml.render definition) = .ok definition) :
    s'.fetch id = .ok ((lastStored (sharesFile id) log).getD Tree.emptyMap) := by
  -- a file that is not there is taken for a definition without entries
  cases hlast : lastStored (sharesFile id) log with
  | none => exact h.fetch_none hdown hlast
  | some definition => exact h.fetch_some hdown hlast (hreads definition (mem_of_lastStored hlast))

/-- **A store on files is a map from files to definitions.** It begins with nothing below its
root. After any series of calls of which the stored definitions can be read back from their texts,
every identity whose domain and name lead down yields the definition that was stored last in its
file. That is the one stored last under this identity, unless a stored definition has the file of
the identity and yet another identity, which takes a colon, a slash or a backslash
(`folded_eq_of_namesOf_eq`). Definitions with other files change nothing for it, and as long as
only identities are stored that lead down, no file comes, changes or goes outside the root. -/
theorem fetch_after {s : FileStore} (hfresh : s.Fresh) (calls : List StoreCall)
    (hreads : ∀ definition ∈ ModelStore.stored s calls,
      Yaml.readTree (Yaml.render definition) = .ok definition) :
    (∀ id, LeadsDown id → (ModelStore.after s calls).fetch id =
      .ok ((lastStored (sharesFile id) (ModelStore.stored s calls)).getD Tree.emptyMap)) ∧
    (∀ id, LeadsDown id →
      (∀ definition ∈ ModelStore.stored s calls, ∀ id',
        ComponentId.ofDefinition definition = .ok id' → namesOf id' = namesOf id →
          id'.folded = id.folded) →
      (ModelStore.after s calls).fetch id = .ok ((lastStored (fun id' => id'.folded == id.folded)
        (ModelStore.stored s calls)).getD Tree.emptyMap)) ∧
    (∀ id definition id', LeadsDown id → ComponentId.ofDefinition definition = .ok id' →
      namesOf id' ≠ namesOf id →
      (FileStore.put (ModelStore.after s calls) definition).2.fetch id =
        (ModelStore.after s calls).fetch id) ∧
    ((∀ definition ∈ ModelStore.stored s calls, ∀ id,
        ComponentId.ofDefinition definition = .ok id → LeadsDown id) →
      ∀ p, ¬ Path.place s.files.home s.root <+: p → ∀ text,
        (ModelStore.after s calls).files.entry? p = some (.file text) ↔
          s.files.entry? p = some (.file text)) := by
  have hfiled := Filed.after hfresh.direct calls hfresh.filed
  rw [List.nil_append] at hfiled
  refine ⟨fun id hdown => hfiled.fetch hdown hreads, fun id hdown halone => ?_,
    fun id definition id' hdown hid hother => ?_, hfiled.outside⟩
  · rw [hfiled.fetch hdown hreads, lastStored_congr fun definition hmem id' hid => ?_]
    -- the stored identities with the same file are those that are the same
    rw [Bool.eq_iff_iff, sharesFile_iff, beq_iff_eq]
    exact ⟨halone definition hmem id' hid, namesOf_of_folded_eq⟩
  · have hlast : lastStored (sharesFile id) (ModelStore.stored s calls ++
        if (FileStore.put (ModelStore.after s calls) definition).1.isOk then [definition] else []) =
          lastStored (sharesFile id) (ModelStore.stored s calls) := by
      split
      · rw [lastStored_concat hid, if_neg (mt sharesFile_iff.mp hother)]
      · rw [List.append_nil]
    have hput := hfiled.put hfresh.direct definition
    -- the definition itself need not be read back, as it is not the one that is fetched
    cases hbefore : lastStored (sharesFile id) (ModelStore.stored s calls) with
    | none =>
      rw [hput.fetch_none hdown (hlast.trans hbefore), hfiled.fetch_none hdown hbefore]
    | some stored =>
      have hstored := hreads stored (mem_of_lastStored hbefore)
      rw [hput.fetch_some hdown (hlast.trans hbefore) hstored,
        hfiled.fetch_some hdown hbefore hstored]

/-- A definition with a note. -/
def noted (domain name note : String) : Tree :=
  .map ⟨[("domain", .text domain), ("name", .text name),
    ("versions", .seq [.map ⟨[("name", .text "v1"), ("note", .text note)]⟩])]⟩

/-- A definition with a note is read back from its text. -/
theorem readTree_render_noted (domain name note : String) :
    Yaml.readTree (Yaml.render (noted domain name note)) = .ok (noted domain name note) :=
  Yaml.readTree_of_storable (by simp [noted, Tree.text, Yaml.Readable])
    (by simp [noted, Tree.text, Tree.height, Tree.heightEntries, Tree.heightItems])

/-- Its identity is that of its domain, its name and its version. -/
theorem ofDefinition_noted {domain name : String} (hdomain : domain ≠ "") (hname : name ≠ "")
    (note : String) : ComponentId.ofDefinition (noted domain name note) =
      .ok ⟨Text.toLower domain, name, "v1"⟩ := by
  have hdomain' : ComponentId.required (noted domain name note) "domain" = .ok domain :=
    ComponentId.required_eq_ok rfl rfl hdomain
  have hname' : ComponentId.required (noted domain name note) "name" = .ok name :=
    ComponentId.required_eq_ok rfl rfl hname
  rw [ComponentId.ofDefinition, hdomain', hname']
  rfl

/-- A store in a directory that is not there yet. -/
def newStore : FileStore := ⟨"models", FileTree.empty ["work"]⟩

/-- There is nothing in it, and the way to it is direct. -/
theorem newStore_fresh : newStore.Fresh where
  nothing below hbelow := by
    have hplace : Path.place newStore.files.home newStore.root = ["work", "models"] := by
      decide +kernel
    rw [hplace]
    simp [FileTree.entry?, newStore, FileTree.empty, Table.empty, Table.get?, Table.find?]
  direct := direct_of_down _ (by decide +kernel)

/-- An arm that is stored twice, with a definition without identity between. -/
def armCalls : List StoreCall :=
  [.put (noted "mechanics" "arm" "first"), .put Tree.emptyMap, .fetch ⟨"mechanics", "arm", "v1"⟩,
    .put (noted "Mechanics" "arm" "second")]

/-- The definition without identity is refused, and both arms are stored. -/
theorem stored_armCalls : ModelStore.stored newStore armCalls =
    [noted "mechanics" "arm" "first", noted "Mechanics" "arm" "second"] := by
  have hfirst : (ModelStore.put newStore (noted "mechanics" "arm" "first")).1.isOk = true := by
    decide +kernel
  have hrefused : ∀ s : FileStore, (ModelStore.put s Tree.emptyMap).1.isOk = false := fun _ => rfl
  have hsecond : (ModelStore.put (ModelStore.after newStore (armCalls.take 3))
      (noted "Mechanics" "arm" "second")).1.isOk = true := by decide +kernel
  simp only [armCalls, List.take, ModelStore.after, List.foldl_cons, List.foldl_nil] at hsecond
  simp only [armCalls, ModelStore.stored, hfirst, hrefused, hsecond, if_true,
    Bool.false_eq_true, if_false, List.nil_append, List.cons_append]

/-- Both definitions of the arm have one identity, and the second one has come last. -/
theorem lastStored_armCalls (isOf : ComponentId → Bool) :
    lastStored isOf (ModelStore.stored newStore armCalls) =
      if isOf ⟨"mechanics", "arm", "v1"⟩ then some (noted "Mechanics" "arm" "second")
      else none := by
  have hlower : Text.toLower "mechanics" = "mechanics" ∧
      Text.toLower "Mechanics" = "mechanics" := by decide +kernel
  have hid := ofDefinition_noted (by decide : "mechanics" ≠ "") (by decide : "arm" ≠ "") "first"
  have hid' := ofDefinition_noted (by decide : "Mechanics" ≠ "") (by decide : "arm" ≠ "") "second"
  rw [hlower.1] at hid
  rw [hlower.2] at hid'
  -- the two definitions have one identity, and the second one hides the first
  rw [stored_armCalls, ← List.singleton_append, lastStored_concat hid',
    ← List.nil_append [noted _ _ _], lastStored_concat hid]
  split <;> rfl

/-- The second arm is there, and nothing else. -/
theorem armCalls_fetched : newStore.Fresh ∧
    (∀ definition ∈ ModelStore.stored newStore armCalls,
      Yaml.readTree (Yaml.render definition) = .ok definition) ∧
    (ModelStore.after newStore armCalls).fetch ⟨"MECHANICS", "arm", "v1"⟩ =
      .ok (noted "Mechanics" "arm" "second") ∧
    (ModelStore.after newStore armCalls).fetch ⟨"mechanics", "arm", "v2"⟩ = .ok Tree.emptyMap := by
  have hreads : ∀ definition ∈ ModelStore.stored newStore armCalls,
      Yaml.readTree (Yaml.render definition) = .ok definition := by
    rw [stored_armCalls]
    simp [readTree_render_noted]
  -- the domain may be in any case, and a version that was not stored has nothing
  have hfetched := (fetch_after newStore_fresh armCalls hreads).1
  refine ⟨newStore_fresh, hreads, ?_, ?_⟩
  · rw [hfetched _ (by decide +kernel), lastStored_armCalls, if_pos (by decide +kernel)]
    rfl
  · rw [hfetched _ (by decide +kernel), lastStored_armCalls, if_neg (by decide +kernel)]
    rfl

/-- Identities are not always told apart: one that has never been stored yields the definition of
another that has the same file. And a domain of two dots leads out of the root. -/
theorem sharedFile_fetched : newStore.Fresh ∧
    (ModelStore.after newStore [.put (noted "mechanics" "a:b" "first")]).fetch
      ⟨"mechanics", "a_b", "v1"⟩ = .ok (noted "mechanics" "a:b" "first") ∧
    lastStored (fun id => id.folded == ComponentId.folded ⟨"mechanics", "a_b", "v1"⟩)
      (ModelStore.stored newStore [.put (noted "mechanics" "a:b" "first")]) = none ∧
    noted "mechanics" "a:b" "first" ≠ Tree.emptyMap ∧
    (ModelStore.after newStore [.put (noted ".." "stray" "first")]).files.entry?
      ["work", "stray", "v1.yml"] = some (.file (Yaml.render (noted ".." "stray" "first"))) ∧
    newStore.files.entry? ["work", "stray", "v1.yml"] = none ∧
    ¬ Path.place newStore.files.home newStore.root <+: ["work", "stray", "v1.yml"] := by
  have hput : (ModelStore.put newStore (noted "mechanics" "a:b" "first")).1.isOk = true := by
    decide +kernel
  have hstored : ModelStore.stored newStore [.put (noted "mechanics" "a:b" "first")] =
      [noted "mechanics" "a:b" "first"] := by
    simp only [ModelStore.stored, hput, if_true, List.append_nil]
  have hid := ofDefinition_noted (by decide : "mechanics" ≠ "") (by decide : "a:b" ≠ "") "first"
  have hlast : ∀ isOf, lastStored isOf [noted "mechanics" "a:b" "first"] =
      if isOf ⟨Text.toLower "mechanics", "a:b", "v1"⟩ then some (noted "mechanics" "a:b" "first")
      else none := fun isOf => by
    rw [← List.nil_append [noted _ _ _], lastStored_concat hid]
    rfl
  -- the identity with the underscore leads to the file of the one with the colon
  have hfiled := Filed.after newStore_fresh.direct [.put (noted "mechanics" "a:b" "first")]
    newStore_fresh.filed
  rw [hstored] at hfiled
  refine ⟨newStore_fresh, ?_, ?_, nofun, by decide +kernel, by decide +kernel, by decide +kernel⟩
  · exact hfiled.fetch_some (by decide +kernel) ((hlast _).trans (if_pos (by decide +kernel)))
      (readTree_render_noted _ _ _)
  · rw [hstored, hlast, if_neg (by decide +kernel)]

end FileStore
end ModelGraph
