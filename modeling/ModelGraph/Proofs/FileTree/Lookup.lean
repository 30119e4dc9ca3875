import ModelGraph.FileTree.Basic
import ModelGraph.Proofs.Except
import ModelGraph.Proofs.FileTree.Path

/-!
# Looking up and changing files

A path leads to its place, or nowhere: whether it does is decided by the directories on the way, and
what is found there by the entry at the place. So every operation on files is told by two things,
`Reaches` and the entry at `Path.place`.

- `contains_iff`, `read_eq_ok_iff`, `write_eq_ok_iff`, `remove_eq_ok`: files.
- `SameBut`: files at some places may have changed; `write_spec`, `remove_spec`.
- `Grown`: directories have been added and nothing else has changed; `makeParent_grown`.
-/

namespace ModelGraph

namespace FileTree

variable {t t' : FileTree} {path text : String}

/-! ## Ways -/

/-- The directories that a path leads through are there. What stands at its end is another matter,
so a path to a new file reaches its place as well. -/
def Reaches (t : FileTree) (path : String) : Prop := ∃ x, t.target path = .ok x

/-- A segment that can be entered leads where paths lead without looking at any files. -/
theorem enter_eq_ok {place place' : List String} {segment : String}
    (h : t.enter place segment = .ok place') : place' = Path.follow place segment := by
  unfold enter at h
  unfold Path.follow
  -- a dot and two dots lead on without a lookup, and a name leads to the directory found
  split at h
  · cases h
    rw [if_pos ‹_›]
  · rw [if_neg ‹_›]
    split at h
    · cases h
      rw [if_pos ‹_›]
    · rw [if_neg ‹_›]
      split at h
      · cases h
      · split at h <;> cases h
        rfl

/-- Where all directories of a tree are there as well, a way can be gone as far. So a tree that has
only grown keeps all ways. -/
theorem enter_of_directories
    (hdirs : ∀ p, t.entry? p = some .directory → t'.entry? p = some .directory)
    {place place' : List String} {segment : String} (h : t.enter place segment = .ok place') :
    t'.enter place segment = .ok place' := by
  unfold enter at h ⊢
  split at h
  · rw [if_pos ‹_›]
    exact h
  · rw [if_neg ‹_›]
    split at h
    · rw [if_pos ‹_›]
      exact h
    · rw [if_neg ‹_›]
      split at h
      · cases h
      · rw [if_neg ‹_›]
        split at h
        · -- only a step down asks the tree, and the directory that it finds is there as well
          rename_i hdir
          rw [hdirs _ hdir]
          exact h
        · cases h
        · cases h

/-- A way that can be gone leads where its segments lead without looking at any files. -/
theorem foldlM_enter_eq_ok (segments : List String) : ∀ {place place' : List String},
    segments.foldlM t.enter place = .ok place' → place' = segments.foldl Path.follow place := by
  induction segments with
  | nil =>
    intro place place' h
    cases h
    rfl
  | cons segment rest ih =>
    intro place place' h
    -- every segment was entered, so it could have been followed
    obtain ⟨next, hfirst, hrest⟩ := foldlM_cons_eq_ok.mp h
    rw [List.foldl_cons, ← enter_eq_ok hfirst]
    exact ih hrest

/-- Where all directories of a tree are there as well, a way can be gone to its end. -/
theorem foldlM_enter_of_directories
    (hdirs : ∀ p, t.entry? p = some .directory → t'.entry? p = some .directory)
    (segments : List String) : ∀ {place place' : List String},
    segments.foldlM t.enter place = .ok place' → segments.foldlM t'.enter place = .ok place' := by
  induction segments with
  | nil => exact fun h => h
  | cons segment rest ih =>
    intro place place' h
    obtain ⟨next, hfirst, hrest⟩ := foldlM_cons_eq_ok.mp h
    exact foldlM_cons_eq_ok.mpr ⟨next, enter_of_directories hdirs hfirst, ih hrest⟩

/-! ## Targets -/

/-- Where all directories are there as well, a path that leads anywhere leads to the same target. -/
theorem target_of_directories (hhome : t'.home = t.home)
    (hdirs : ∀ p, t.entry? p = some .directory → t'.entry? p = some .directory) {x : Target}
    (h : t.target path = .ok x) : t'.target path = .ok x := by
  have hstart : t'.start path = t.start path := by rw [start, start, hhome]
  unfold target at h ⊢
  split at h
  · cases h
  · rw [if_neg ‹_›]
    split at h
    · cases h
    · rw [if_neg ‹_›]
      split at h
      · exact h
      · -- the last segment is not entered, so only the way to it matters
        obtain ⟨place, hway, htarget⟩ := bind_eq_ok.mp h
        rw [hstart]
        exact bind_eq_ok.mpr ⟨place, foldlM_enter_of_directories hdirs _ hway, htarget⟩

/-- Where all directories of a tree are there as well, every path reaches its place that did so
before. -/
theorem Reaches.of_directories (hhome : t'.home = t.home)
    (hdirs : ∀ p, t.entry? p = some .directory → t'.entry? p = some .directory)
    (h : t.Reaches path) : t'.Reaches path :=
  h.imp fun _ hx => target_of_directories hhome hdirs hx

/-- What is known of the target of a path with a last segment: it is in the place that the other
segments lead to, and the last one has not been looked at. -/
theorem target_eq_ok {last : String} (hlast : (Path.segments path).getLast? = some last)
    {x : Target}
    (h : t.target path = .ok x) :
    x = ⟨(Path.segments path).dropLast.foldl Path.follow (t.start path), last,
      path.toList.getLast? == some '/'⟩ := by
  unfold target at h
  split at h
  · cases h
  · split at h
    · cases h
    · rw [hlast] at h
      -- only the way to the last segment is looked up
      obtain ⟨place, hway, htarget⟩ := bind_eq_ok.mp h
      split at htarget
      · cases htarget
      · cases htarget
        rw [foldlM_enter_eq_ok _ hway]

/-- A path whose target is a name leads to its place, which is told by the path and the working
directory alone. -/
theorem full_eq_place {x : Target} (h : t.target path = .ok x) (hdots : x.isDots = false) :
    (Path.segments path).getLast? = some x.last ∧ x.full = Path.place t.home path := by
  cases hlast : (Path.segments path).getLast? with
  | none =>
    -- a path without segments leads to the root or nowhere
    unfold target at h
    rw [hlast] at h
    dsimp only at h
    split at h
    · cases h
    · split at h
      · cases h
      · split at h <;> cases h
        cases hdots
  | some last =>
    cases target_eq_ok hlast h
    refine ⟨rfl, ?_⟩
    obtain ⟨hdot, hdotdot⟩ := Bool.or_eq_false_iff.mp hdots
    obtain ⟨before, hbefore⟩ := List.getLast?_eq_some_iff.mp hlast
    rw [Target.full, Path.place_eq, hbefore, List.dropLast_concat, List.foldl_append,
      List.foldl_cons, List.foldl_nil, Path.follow, if_neg (beq_eq_false_iff_ne.mp hdot),
      if_neg (beq_eq_false_iff_ne.mp hdotdot)]
    rfl

/-- A path that ends in a name has its place as its target. -/
theorem target_of_endsInName (hname : Path.EndsInName path) {x : Target}
    (h : t.target path = .ok x) :
    x.isDots = false ∧ x.closed = false ∧ x.full = Path.place t.home path := by
  obtain ⟨name, hlast, hdot, hdots⟩ := hname.name
  -- the last segment is no dots, so the target is the place itself
  have hx := target_eq_ok hlast h
  have hnot : x.isDots = false := by simp [hx, Target.isDots, hdot, hdots]
  exact ⟨hnot, by simpa [hx] using hname.notClosed, (full_eq_place h hnot).2⟩

/-! ## Files -/

/-- A path that ends in a name leads to what stands at its place, if it leads anywhere. With this,
no other proof has to go along the segments of a path. -/
theorem look_eq_ok_iff (hname : Path.EndsInName path) {e : FileEntry} :
    t.look path = .ok e ↔ t.Reaches path ∧ t.entry? (Path.place t.home path) = some e := by
  unfold look Reaches
  cases htarget : t.target path with
  | error fault => exact ⟨nofun, fun ⟨⟨x, hx⟩, _⟩ => nomatch hx⟩
  | ok x =>
    obtain ⟨hdots, hclosed, hfull⟩ := target_of_endsInName hname htarget
    change (if x.isDots then _ else _) = _ ↔ _
    rw [hdots, if_neg Bool.false_ne_true, hfull]
    cases hentry : t.entry? (Path.place t.home path) with
    | none => simp
    | some found => cases found <;> simp [hclosed]

/-- Something is there exactly if the path reaches its place and an entry stands at it. -/
theorem contains_iff (hname : Path.EndsInName path) :
    t.contains path = true ↔ t.Reaches path ∧ ∃ e, t.entry? (Path.place t.home path) = some e := by
  rw [contains]
  constructor
  · intro h
    cases hlook : t.look path with
    | error fault =>
      rw [hlook] at h
      cases h
    | ok e => exact ((look_eq_ok_iff hname).mp hlook).imp_right fun he => ⟨e, he⟩
  · rintro ⟨hreaches, e, he⟩
    rw [(look_eq_ok_iff hname).mpr ⟨hreaches, he⟩]
    rfl

/-- A file is read exactly if the path reaches its place and a file with this text stands at it. -/
theorem read_eq_ok_iff (hname : Path.EndsInName path) :
    t.read path = .ok text ↔
      t.Reaches path ∧ t.entry? (Path.place t.home path) = some (.file text) := by
  rw [← look_eq_ok_iff hname, read]
  cases t.look path with
  | error fault => exact ⟨nofun, nofun⟩
  | ok e =>
    cases e with
    | directory => exact ⟨nofun, nofun⟩
    | file s => exact ⟨fun h => by cases h; rfl, fun h => by cases h; rfl⟩

/-- A target that is a name, without a slash behind it, has a path that ends in a name. -/
theorem endsInName_of_target {x : Target} (h : t.target path = .ok x)
    (hopen : (x.isDots || x.closed) = false) : Path.EndsInName path := by
  obtain ⟨hdots, hclosed⟩ := Bool.or_eq_false_iff.mp hopen
  have hlast := (full_eq_place h hdots).1
  rw [target_eq_ok hlast h] at hclosed
  obtain ⟨hdot, hdotdot⟩ := Bool.or_eq_false_iff.mp hdots
  exact ⟨⟨x.last, hlast, beq_eq_false_iff_ne.mp hdot, beq_eq_false_iff_ne.mp hdotdot⟩,
    beq_eq_false_iff_ne.mp hclosed⟩

/-- A file is written exactly if the path ends in a name, leads anywhere, and to no directory. All
that changes is the text at its place. -/
theorem write_eq_ok_iff :
    t.write path text = .ok t' ↔ Path.EndsInName path ∧ t.Reaches path ∧
      t.entry? (Path.place t.home path) ≠ some .directory ∧
      t' = { t with files := t.files.set (Path.place t.home path) text } := by
  unfold write Reaches
  cases htarget : t.target path with
  | error fault => exact ⟨nofun, fun ⟨_, ⟨x, hx⟩, _⟩ => nomatch hx⟩
  | ok x =>
    change (if (x.isDots || x.closed) = true then _ else _) = _ ↔ _
    cases hopen : x.isDots || x.closed with
    | true =>
      -- a path that ends in a name is never refused here
      refine ⟨nofun, fun ⟨hname, _⟩ => ?_⟩
      obtain ⟨hdots, hclosed, -⟩ := target_of_endsInName hname htarget
      rw [hdots, hclosed] at hopen
      cases hopen
    | false =>
      have hname := endsInName_of_target htarget hopen
      rw [if_neg Bool.false_ne_true, (target_of_endsInName hname htarget).2.2]
      split
      · exact ⟨nofun, fun ⟨_, _, hne, _⟩ => absurd ‹_› hne⟩
      · rename_i hne
        exact ⟨fun h => ⟨hname, ⟨x, rfl⟩, hne, (Except.ok.inj h).symm⟩,
          fun ⟨_, _, _, heq⟩ => congrArg _ heq.symm⟩

/-- What is removed is no directory, and all that changes is that its place is empty. -/
theorem remove_eq_ok (hname : Path.EndsInName path) (h : t.remove path = .ok t') :
    t.entry? (Path.place t.home path) ≠ some .directory ∧
      t' = { t with files := t.files.erase (Path.place t.home path) } := by
  obtain ⟨x, htarget, h⟩ := bind_eq_ok.mp h
  obtain ⟨e, hlook, h⟩ := bind_eq_ok.mp h
  cases e with
  -- a directory is not removed
  | directory => cases h
  | file s =>
    cases h
    obtain ⟨-, hentry⟩ := (look_eq_ok_iff hname).mp hlook
    rw [hentry, (target_of_endsInName hname htarget).2.2]
    exact ⟨nofun, rfl⟩

/-! ## Entries -/

/-- An entry with a text is a file of the tree. -/
theorem get?_of_file {p : List String} (h : t.entry? p = some (.file text)) :
    t.files.get? p = some text := by
  unfold entry? at h
  split at h
  · cases h
  · obtain ⟨s, hs, heq⟩ := Option.map_eq_some_iff.mp h
    cases heq
    exact hs

/-- Setting a file changes the entry at its place alone. -/
theorem entry?_set {place : List String} (h : t.entry? place ≠ some .directory) (text : String)
    (p : List String) : FileTree.entry? { t with files := t.files.set place text } p =
      if p = place then some (.file text) else t.entry? p := by
  unfold entry? at h ⊢
  by_cases hp : p = place
  · subst hp
    have hno : ¬ (p.isPrefixOf t.home ∨ p ∈ t.directories) := fun hdir => h (if_pos hdir)
    rw [if_neg hno, if_pos rfl, Table.get?_set, if_pos rfl, Option.map_some]
  · rw [if_neg hp, Table.get?_set, if_neg hp]

/-- Erasing a file changes the entry at its place alone. -/
theorem entry?_erase {place : List String} (h : t.entry? place ≠ some .directory)
    (p : List String) : FileTree.entry? { t with files := t.files.erase place } p =
      if p = place then none else t.entry? p := by
  unfold entry? at h ⊢
  by_cases hp : p = place
  · subst hp
    have hno : ¬ (p.isPrefixOf t.home ∨ p ∈ t.directories) := fun hdir => h (if_pos hdir)
    rw [if_neg hno, if_pos rfl, Table.get?_erase, if_pos rfl, Option.map_none]
  · rw [if_neg hp, Table.get?_erase, if_neg hp]

/-- A new directory changes the entry at its place alone. -/
theorem entry?_addDirectory (place p : List String) :
    FileTree.entry? { t with directories := t.directories ++ [place] } p =
      if p = place then some .directory else t.entry? p := by
  unfold entry?
  by_cases hp : p = place
  · rw [if_pos hp, if_pos (.inr (by simp [hp]))]
  · rw [if_neg hp]
    simp [hp]

/-! ## Changes of files -/

/-- Files at some places may have changed, and everything else is the same. Directories are not
among what may change, so all paths reach the places that they reached before. -/
structure SameBut (places : List (List String)) (t t' : FileTree) : Prop where
  home : t'.home = t.home
  entries : ∀ p, p ∉ places → t'.entry? p = t.entry? p
  directories : ∀ p, t'.entry? p = some .directory ↔ t.entry? p = some .directory

namespace SameBut

variable {places : List (List String)}

/-- Nothing has changed at all. -/
theorem refl (t : FileTree) : SameBut places t t := ⟨rfl, fun _ _ => rfl, fun _ => Iff.rfl⟩

/-- What becomes of a tree in which a file comes, changes or goes at one place. -/
theorem single {place : List String} {e : Option FileEntry} (hhome : t'.home = t.home)
    (hbefore : t.entry? place ≠ some .directory)
    (h : ∀ p, t'.entry? p = if p = place then e else t.entry? p) (hafter : e ≠ some .directory) :
    SameBut [place] t t' where
  home := hhome
  entries p hp := by rw [h, if_neg fun heq => hp (List.mem_singleton.mpr heq)]
  directories p := by
    rw [h]
    split
    -- the place itself is a directory neither before nor afterwards
    · rename_i hp
      rw [hp]
      exact iff_of_false hafter hbefore
    · exact Iff.rfl

/-- The same paths reach their places. -/
theorem reaches_iff (h : SameBut places t t') : t'.Reaches path ↔ t.Reaches path :=
  ⟨.of_directories h.home.symm fun p => (h.directories p).mp,
    .of_directories h.home fun p => (h.directories p).mpr⟩

/-- A file at any other place is read as before. -/
theorem read_iff (h : SameBut places t t') (hname : Path.EndsInName path)
    (hplace : Path.place t.home path ∉ places) :
    t'.read path = .ok text ↔ t.read path = .ok text := by
  rw [read_eq_ok_iff hname, read_eq_ok_iff hname, h.reaches_iff, h.home, h.entries _ hplace]

/-- At any other place there is something if there was something before. -/
theorem contains_iff (h : SameBut places t t') (hname : Path.EndsInName path)
    (hplace : Path.place t.home path ∉ places) :
    t'.contains path = true ↔ t.contains path = true := by
  rw [FileTree.contains_iff hname, FileTree.contains_iff hname, h.reaches_iff, h.home,
    h.entries _ hplace]

end SameBut

/-- A file that has been written holds its text, and all else is the same. -/
theorem write_spec (h : t.write path text = .ok t') : Path.EndsInName path ∧
    SameBut [Path.place t.home path] t t' ∧ t'.read path = .ok text := by
  obtain ⟨hname, hreaches, hne, heq⟩ := write_eq_ok_iff.mp h
  have hentries := entry?_set hne text
  rw [← heq] at hentries
  have hhome : t'.home = t.home := by rw [heq]
  -- the text at one place has changed, which takes away no directory
  have hsame : SameBut [Path.place t.home path] t t' := .single hhome hne hentries nofun
  refine ⟨hname, hsame, (read_eq_ok_iff hname).mpr ⟨hsame.reaches_iff.mpr hreaches, ?_⟩⟩
  rw [hentries, hhome, if_pos rfl]

/-- A file that has been removed is not there any more, and all else is the same. -/
theorem remove_spec (hname : Path.EndsInName path) (h : t.remove path = .ok t') :
    SameBut [Path.place t.home path] t t' ∧ t'.contains path = false := by
  obtain ⟨hne, heq⟩ := remove_eq_ok hname h
  have hentries := entry?_erase hne
  rw [← heq] at hentries
  have hhome : t'.home = t.home := by rw [heq]
  refine ⟨.single hhome hne hentries nofun, Bool.eq_false_iff.mpr fun hcontains => ?_⟩
  obtain ⟨-, e, he⟩ := (contains_iff hname).mp hcontains
  rw [hentries, hhome, if_pos rfl] at he
  cases he

/-! ## Directories -/

/-- Directories have been added at certain places where nothing was, and nothing else has changed.
Making directories has this effect also where it fails on the way, which is why the places are a
condition and no list. -/
structure Grown (may : List String → Prop) (t t' : FileTree) : Prop where
  home : t'.home = t.home
  files : t'.files = t.files
  kept : ∀ p e, t.entry? p = some e → t'.entry? p = some e
  made : ∀ p, t'.entry? p = some .directory → t.entry? p = some .directory ∨ may p

variable {may : List String → Prop}

/-- No directory has been added. -/
theorem Grown.refl (t : FileTree) : Grown may t t := ⟨rfl, rfl, fun _ _ h => h, fun _ => .inl⟩

/-- Directories that are added in two rounds are added all in all. -/
theorem Grown.trans {t'' : FileTree} (h : Grown may t t') (h' : Grown may t' t'') :
    Grown may t t'' where
  home := h'.home.trans h.home
  files := h'.files.trans h.files
  kept p e he := h'.kept p e (h.kept p e he)
  made p hp := (h'.made p hp).elim (h.made p) .inr

/-- An entry that is no directory is a file that was there before. -/
theorem Grown.file_iff (h : Grown may t t') {p : List String} {text : String} :
    t'.entry? p = some (.file text) ↔ t.entry? p = some (.file text) := by
  refine ⟨fun hfile => ?_, h.kept p _⟩
  cases hentry : t.entry? p with
  | none =>
    -- the files are the same, so the one at `p` would have been found before
    unfold entry? at hentry
    split at hentry
    · cases hentry
    · rw [← h.files, get?_of_file hfile] at hentry
      cases hentry
  | some e => exact ((h.kept p e hentry).symm.trans hfile)

/-- Where no directory may have been added, everything is as it was. -/
theorem Grown.entry?_eq (h : Grown may t t') {p : List String} (hp : ¬ may p) :
    t'.entry? p = t.entry? p := by
  cases hafter : t'.entry? p with
  | none =>
    cases hbefore : t.entry? p with
    | none => rfl
    | some e => rw [h.kept p e hbefore] at hafter; cases hafter
  | some e =>
    cases e with
    | directory => exact ((h.made p hafter).resolve_right hp).symm
    | file text => exact (h.file_iff.mp hafter).symm

/-- A path that reached its place reaches it with more directories too. -/
theorem Grown.reaches (h : Grown may t t') (hreaches : t.Reaches path) : t'.Reaches path :=
  hreaches.of_directories h.home fun p => h.kept p .directory

/-- A directory is made where nothing was, and everything else is as it was. -/
theorem makeDirectory_grown (h : t.makeDirectory path = .ok t')
    (hmay : may (Path.place t.home path)) : Grown may t t' := by
  obtain ⟨x, htarget, h⟩ := bind_eq_ok.mp h
  split at h
  · cases h
  · rename_i hfree
    cases h
    simp only [Bool.or_eq_true, not_or, Bool.not_eq_true, Option.isSome_eq_false_iff,
      Option.isNone_iff_eq_none] at hfree
    obtain ⟨hdots, hnone⟩ := hfree
    rw [(full_eq_place htarget hdots).2] at hnone ⊢
    -- nothing was at the place, so no entry is lost
    refine ⟨rfl, rfl, fun p e he => ?_, fun p hp => ?_⟩
    · have hne : p ≠ Path.place t.home path := fun hp => by simp [hp, hnone] at he
      rw [entry?_addDirectory, if_neg hne, he]
    · rw [entry?_addDirectory] at hp
      split at hp
      · rename_i hsame
        exact .inr (hsame ▸ hmay)
      · exact .inl hp

/-- Directories are made at the places of the paths, also where the work breaks off. The induction
is over the paths from the inside out. -/
theorem makeWithin_grown (paths : List String) :
    ∀ t : FileTree, (∀ path ∈ paths, may (Path.place t.home path)) →
      Grown may t (t.makeWithin paths).2 := by
  induction paths with
  | nil => exact fun t _ => .refl t
  | cons path outer ih =>
    intro t hmay
    obtain ⟨hpath, houter⟩ := List.forall_mem_cons.mp hmay
    rw [makeWithin]
    split
    · exact .refl t
    · split
      · exact makeDirectory_grown ‹_› hpath
      · -- the directories around it come first, and then it is tried once more
        have hgrown := ih t houter
        split
        · rename_i hwithin
          rwa [hwithin] at hgrown
        · rename_i within hwithin
          rw [hwithin] at hgrown
          split
          · rename_i hmade
            exact hgrown.trans (makeDirectory_grown hmade (hgrown.home ▸ hpath))
          · split <;> exact hgrown
      · split <;> exact .refl t

/-- For a file, directories are made at the places of the paths above it. -/
theorem makeParent_grown (t : FileTree) (path : String)
    (hmay : ∀ above : String, Path.names above <+: (Path.names path).dropLast →
      Path.isAbsolute above = Path.isAbsolute path → may (Path.place t.home above)) :
    Grown may t (t.makeParent path).2 := by
  unfold makeParent
  cases hparent : Path.parent? path with
  | none => exact .refl t
  | some parent =>
    -- directories are made for the parent and for paths above it, whose names are the first ones of
    -- the path
    refine makeWithin_grown _ t fun above habove => ?_
    obtain ⟨hnames, habsolute⟩ := Path.names_of_parent? hparent
    obtain ⟨hbegins, hsame⟩ := Path.names_of_mem_upwards habove
    exact hmay above (hnames ▸ hbegins) (hsame.trans habsolute)

end FileTree
end ModelGraph
