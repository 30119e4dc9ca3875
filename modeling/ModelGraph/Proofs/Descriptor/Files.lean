import ModelGraph.Descriptor.Files
import ModelGraph.Proofs.FileTree.Lookup

/-!
# Written descriptor files

Whatever has been in a directory before, after the descriptors of a graph have been written the
files beside each other say what they should say, and nothing is left of earlier graphs. The three
files have different names, unless the primary one has the name of the one that shuts everything
down.

- `FileAction.bind_eq_ok`: the steps of an action that succeeds.
- `Siblings`: the places of the three files.
- `Written`: what is on the files after a graph has been written.
- `writeAll_complete`: it is there after any series of graphs, for the last of them.
-/

namespace ModelGraph

/-! ## Actions that succeed -/

namespace FileAction

variable {ε α β : Type} {t t' : FileTree}

/-- An action succeeds if and only if its steps succeed one after the other. -/
theorem bind_eq_ok {first : FileAction ε α} {next : α → FileAction ε β} {b : β} :
    (first >>= next) t = (.ok b, t') ↔
      ∃ a between, first t = (.ok a, between) ∧ next a between = (.ok b, t') := by
  change andThen first next t = _ ↔ _
  unfold andThen
  rcases hfirst : first t with ⟨_ | a, between⟩
  · exact ⟨nofun, fun ⟨_, _, h, _⟩ => nomatch h⟩
  · exact ⟨fun h => ⟨a, between, rfl, h⟩, fun ⟨_, _, h, h'⟩ => by cases h; exact h'⟩

/-- A change succeeds if and only if its step on the files does. -/
theorem change_eq_ok {wrap : FileFault → ε} {step : FileTree → Except FileFault FileTree}
    {u : Unit} :
    change wrap step t = (.ok u, t') ↔ step t = .ok t' := by
  unfold change
  cases step t with
  | error fault => exact ⟨nofun, nofun⟩
  | ok changed => exact ⟨fun h => by cases h; rfl, fun h => by cases h; rfl⟩

/-- The directories that are made for a file. -/
theorem makeParent_grown {wrap : String → FileFault → ε} {path : String} {u : Unit}
    (h : makeParent wrap path t = (.ok u, t')) : FileTree.Grown (fun _ => True) t t' := by
  have hgrown : FileTree.Grown (fun _ => True) t (t.makeParent path).2 :=
    t.makeParent_grown path fun _ _ _ => trivial
  unfold makeParent at h
  rcases hmade : t.makeParent path with ⟨_ | _, made⟩ <;> rw [hmade] at h hgrown <;> cases h
  exact hgrown

end FileAction

namespace Compiled

/-- The graphs written one after the other to the same file, until one of them cannot be. -/
def writeAll (primary : String) : List Compiled → FileAction DescriptorFileError Unit
  | [] => pure ()
  | c :: rest => do
    let _ ← c.write primary
    writeAll primary rest

end Compiled

/-! ## Names of the files -/

namespace DescriptorPaths

/-- The three files stand beside each other at different places, wherever the working directory is.
So writing one of them leaves the others alone. -/
structure Siblings (primary : String) : Prop where
  pre : Path.EndsInName (preOf primary)
  shutdown : Path.EndsInName (shutdownOf primary)
  pre_ne : ∀ home, Path.place home (preOf primary) ≠ Path.place home primary
  shutdown_ne : ∀ home, Path.place home (shutdownOf primary) ≠ Path.place home primary
  others_ne : ∀ home, Path.place home (shutdownOf primary) ≠ Path.place home (preOf primary)

end DescriptorPaths

/-- The three files are different ones, unless the primary one has the name of the one that shuts
everything down. -/
theorem DescriptorPaths.siblings {primary name : String} (h : Path.fileName? primary = some name)
    (hname : name ≠ "shutdown.cnd") : Siblings primary := by
  obtain ⟨hplain, parent, hparent, hplace⟩ := Path.place_of_fileName? h
  have hstem : (Path.stem? primary).getD "" = (Path.cutAtPoint name).1 := by
    rw [Path.stem?, h]
    rfl
  have hpre : preOf primary = Path.join parent ((Path.cutAtPoint name).1 ++ "_pre.cnd") := by
    rw [preOf, Path.withFileName_eq h hparent, hstem]
  have hshutdown : shutdownOf primary = Path.join parent "shutdown.cnd" :=
    Path.withFileName_eq h hparent _
  have hpreName : Path.Plain ((Path.cutAtPoint name).1 ++ "_pre.cnd") :=
    Path.plain_append hplain.stem (by decide) (by decide)
  have hshutdownName : Path.Plain "shutdown.cnd" := by decide
  -- what differs in the last name leads to different places
  have hlast : ∀ (place : List String) {a b : String}, a ≠ b → place ++ [a] ≠ place ++ [b] :=
    fun place a b hab heq => hab (List.cons.inj (List.append_cancel_left heq)).1
  -- the names differ: the first from the primary one, the second from it by assumption, and the two
  -- by how they end
  refine ⟨hpre ▸ Path.endsInName_join parent hpreName,
    hshutdown ▸ Path.endsInName_join parent hshutdownName, fun home => ?_, fun home => ?_,
    fun home => ?_⟩
  · rw [hpre, Path.place_join home parent hpreName, hplace home]
    exact hlast _ (Path.cutAtPoint_append_ne name (by decide) (by decide))
  · rw [hshutdown, Path.place_join home parent hshutdownName, hplace home]
    exact hlast _ hname.symm
  · rw [hshutdown, hpre, Path.place_join home parent hshutdownName,
      Path.place_join home parent hpreName]
    refine hlast _ fun heq => ?_
    have hsuffix : "_pre.cnd".toList <:+ "shutdown.cnd".toList :=
      ⟨_, (String.toList_append.symm.trans (congrArg String.toList heq.symm))⟩
    exact absurd hsuffix (by decide)

/-! ## Contents of the files -/

open DescriptorPaths

/-- What is on the files after a graph has been written. It says what was there before only for
files other than the three, so it can be said after any series of graphs. -/
structure Written (c : Compiled) (primary : String) (t t' : FileTree) : Prop where
  /-- The primary file holds the descriptor. -/
  descriptor : t'.read primary = .ok c.descriptor.toYaml
  /-- The file beside it holds the descriptor of the first stage, if there is one. -/
  pre : ∀ pre, c.pre = some pre → t'.read (preOf primary) = .ok pre.toYaml
  /-- If there is none, there is no such file. -/
  noPre : c.pre = none → t'.contains (preOf primary) = false
  /-- The file that shuts everything down is there. -/
  shutdown : t'.read (shutdownOf primary) = .ok Descriptor.shutdownText
  /-- All other files are what they were. -/
  others : ∀ p text, p ≠ Path.place t.home primary → p ≠ Path.place t.home (preOf primary) →
    p ≠ Path.place t.home (shutdownOf primary) →
    (t'.entry? p = some (.file text) ↔ t.entry? p = some (.file text))
  home : t'.home = t.home

section Steps

variable {c : Compiled} {primary : String} {t t' : FileTree}

/-- A text is written if and only if its file can be. -/
theorem writeText_eq_ok {path text : String} {u : Unit} :
    Compiled.writeText path text t = (.ok u, t') ↔ t.write path text = .ok t' := by
  unfold Compiled.writeText FileAction.write
  exact FileAction.change_eq_ok

/-- The file of the first stage after its step: it holds the descriptor, or it is not there. A file
that an earlier graph has left is removed. -/
theorem writePre_spec {pre : Option Descriptor} {path : String} (hname : Path.EndsInName path)
    {answer : Option String} (h : Compiled.writePre path pre t = (.ok answer, t')) :
    FileTree.SameBut [Path.place t.home path] t t' ∧
      (∀ d, pre = some d → t'.read path = .ok d.toYaml) ∧
      (pre = none → t'.contains path = false) := by
  cases pre with
  | some d =>
    -- the file is written, whatever was there
    obtain ⟨u, between, hwrite, hend⟩ := FileAction.bind_eq_ok.mp h
    cases hend
    obtain ⟨-, hsame, hread⟩ := FileTree.write_spec (writeText_eq_ok.mp hwrite)
    exact ⟨hsame, fun _ hd => by cases hd; exact hread, nofun⟩
  | none =>
    -- a file of an earlier graph is removed, but only if it is there
    obtain ⟨u, between, hremove, hend⟩ := FileAction.bind_eq_ok.mp h
    cases hend
    obtain ⟨there, asked, hask, hstep⟩ := FileAction.bind_eq_ok.mp hremove
    cases hask
    dsimp only at hstep
    cases hthere : t.contains path with
    | true =>
      rw [if_pos hthere] at hstep
      obtain ⟨hsame, hgone⟩ := FileTree.remove_spec hname (FileAction.change_eq_ok.mp hstep)
      exact ⟨hsame, nofun, fun _ => hgone⟩
    | false =>
      rw [if_neg (Bool.eq_false_iff.mp hthere)] at hstep
      cases hstep
      exact ⟨.refl t, nofun, fun _ => hthere⟩

/-- A graph that has been written is on its files. The three steps are taken one after the other,
and each leaves the files of the others as they were, since their names differ. -/
theorem write_written (hprimary : Path.fileName? primary ≠ some "shutdown.cnd")
    {paths : DescriptorPaths} (h : c.write primary t = (.ok paths, t')) :
    Written c primary t t' := by
  obtain ⟨_, made, hmade, h⟩ := FileAction.bind_eq_ok.mp h
  obtain ⟨_, first, hfirst, h⟩ := FileAction.bind_eq_ok.mp h
  obtain ⟨answer, second, hsecond, h⟩ := FileAction.bind_eq_ok.mp h
  obtain ⟨_, third, hthird, h⟩ := FileAction.bind_eq_ok.mp h
  cases h
  have hgrown := FileAction.makeParent_grown hmade
  obtain ⟨hname, hsame₁, hread⟩ := FileTree.write_spec (writeText_eq_ok.mp hfirst)
  obtain ⟨name, hfile⟩ := hname.fileName?
  have hsiblings : Siblings primary :=
    siblings hfile fun heq => hprimary (hfile.trans (congrArg some heq))
  obtain ⟨hsame₂, hpre, hnoPre⟩ := writePre_spec hsiblings.pre hsecond
  obtain ⟨-, hsame₃, hshutdown⟩ := FileTree.write_spec (writeText_eq_ok.mp hthird)
  -- the working directory stays, so the places of the three files do
  have hfirstHome : first.home = t.home := hsame₁.home.trans hgrown.home
  have hsecondHome : second.home = t.home := hsame₂.home.trans hfirstHome
  rw [hgrown.home] at hsame₁
  rw [hfirstHome] at hsame₂
  rw [hsecondHome] at hsame₃
  have hpreKept : Path.place second.home (preOf primary) ∉
      [Path.place t.home (shutdownOf primary)] :=
    fun hmem => hsiblings.others_ne _ (hsecondHome ▸ (List.mem_singleton.mp hmem).symm)
  -- each file is read after the steps that follow its own, and these do not touch it
  exact {
    descriptor := by
      have hstays : second.read primary = .ok c.descriptor.toYaml :=
        (hsame₂.read_iff hname fun hmem =>
          hsiblings.pre_ne _ (hfirstHome ▸ (List.mem_singleton.mp hmem).symm)).mpr hread
      exact (hsame₃.read_iff hname fun hmem =>
        hsiblings.shutdown_ne _ (hsecondHome ▸ (List.mem_singleton.mp hmem).symm)).mpr hstays
    pre := fun pre hsome =>
      (hsame₃.read_iff hsiblings.pre hpreKept).mpr (hpre pre hsome)
    noPre := fun hnone => by
      have hgone := hnoPre hnone
      rw [Bool.eq_false_iff] at hgone ⊢
      exact fun hthere => hgone ((hsame₃.contains_iff hsiblings.pre hpreKept).mp hthere)
    shutdown := hshutdown
    others := fun p text hp hpPre hpShutdown => by
      rw [hsame₃.entries p (by simpa using hpShutdown), hsame₂.entries p (by simpa using hpPre),
        hsame₁.entries p (by simpa using hp)]
      exact hgrown.file_iff
    home := hsame₃.home.trans hsecondHome }

/-- **Whatever has been written before, the files say what the last graph is.** After a series of
graphs has been written to a file, which does not have the name of the one that shuts everything
down, the three files hold the descriptors of the last graph, and all other files are what they were
before the first. -/
theorem writeAll_complete (hprimary : Path.fileName? primary ≠ some "shutdown.cnd")
    (earlier : List Compiled)
    (h : Compiled.writeAll primary (earlier ++ [c]) t = (.ok (), t')) : Written c primary t t' := by
  induction earlier generalizing t with
  | nil =>
    obtain ⟨paths, after, hwrite, hend⟩ := FileAction.bind_eq_ok.mp h
    cases hend
    exact write_written hprimary hwrite
  | cons first rest ih =>
    obtain ⟨paths, after, hwrite, hrest⟩ := FileAction.bind_eq_ok.mp h
    -- the three files of the first graph are overwritten, and all other files have been left alone
    -- by it too
    have hfirst := write_written hprimary hwrite
    have hlast := ih hrest
    exact { hlast with
      others := fun p text hp hpPre hpShutdown => by
        rw [← hfirst.others p text hp hpPre hpShutdown]
        rw [← hfirst.home] at hp hpPre hpShutdown
        exact hlast.others p text hp hpPre hpShutdown
      home := hlast.home.trans hfirst.home }

end Steps

/-- A simulated task alone, compiled with a first stage or without. -/
def simulation (isStaged : Bool) : Compiled where
  descriptor :=
    { Descriptor.empty with
      tasks := ⟨[("simulation", { config := OrderedMap.empty, typeName := "mars::Task" })]⟩ }
  pre := if isStaged then some Descriptor.empty else none
  stats := ⟨1, 0, 1, 0, 0, 0, 0, 1⟩
  warnings := []

/-- A directory with a note in it. -/
def noteTree : FileTree :=
  { FileTree.empty ["work"] with files := Table.empty.set ["work", "note.txt"] "do not touch" }

/-- A graph is written with a first stage and then without one, to a file with two points. -/
theorem noteTree_written : ∃ t',
    Compiled.writeAll "out/robot.v2.cnd" [simulation true, simulation false] noteTree =
        (.ok (), t') ∧
      Written (simulation false) "out/robot.v2.cnd" noteTree t' := by
  have hok : (Compiled.writeAll "out/robot.v2.cnd" [simulation true, simulation false]
      noteTree).1.isOk = true := by decide +kernel
  rcases hwrite : Compiled.writeAll "out/robot.v2.cnd" [simulation true, simulation false]
    noteTree with ⟨_ | _, t'⟩
  · rw [hwrite] at hok
    cases hok
  · exact ⟨t', rfl, writeAll_complete (by decide +kernel) [simulation true] hwrite⟩

/-- A primary file with the name of the one that shuts everything down does not hold the descriptor
afterwards. -/
theorem shutdownFile_overwritten : ∃ paths t',
    (simulation false).write "out/shutdown.cnd" noteTree = (.ok paths, t') ∧
      t'.read "out/shutdown.cnd" = .ok Descriptor.shutdownText ∧
      t'.read "out/shutdown.cnd" ≠ .ok (simulation false).descriptor.toYaml := by
  have hok : ((simulation false).write "out/shutdown.cnd" noteTree).1.isOk = true := by
    decide +kernel
  have hread : (((simulation false).write "out/shutdown.cnd" noteTree).2.read
      "out/shutdown.cnd").toOption = some Descriptor.shutdownText := by decide +kernel
  have hother : Descriptor.shutdownText ≠ (simulation false).descriptor.toYaml := by decide +kernel
  -- writing succeeds, so there is a file to read, and it says what was written last
  rcases hwrite : (simulation false).write "out/shutdown.cnd" noteTree with ⟨_ | paths, t'⟩
  · rw [hwrite] at hok
    cases hok
  · rw [hwrite] at hread
    cases htext : t'.read "out/shutdown.cnd" with
    | error fault =>
      rw [htext] at hread
      cases hread
    | ok text =>
      rw [htext] at hread
      cases hread
      exact ⟨paths, t', rfl, htext, fun h => hother (Except.ok.inj (htext.symm.trans h))⟩

end ModelGraph
