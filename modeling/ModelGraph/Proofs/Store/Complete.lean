import ModelGraph.Proofs.FileTree.Lookup
import ModelGraph.Store.File
import ModelGraph.Store.Memory

/-!
# Complete sources

A source of definitions is complete if it lists every definition that it can answer with. There are
then only finitely many components to expand. Both kinds of stores make complete sources.

- `MemoryStore.source_complete`: every definition is an entry of the table.
- `FileStore.source_complete`: every definition is the text of a file.
-/

namespace ModelGraph

/-! ## Stores in memory -/

/-- **A store in memory lists its definitions**, which are the entries of its table. -/
theorem MemoryStore.source_complete (s : MemoryStore) : s.source.Complete := by
  intro id definition h hd
  simp only [MemoryStore.source, MemoryStore.definition] at h ⊢
  -- an identity that is not in the table has the definition without entries, which opens no
  -- component
  cases hget : s.definitions.get? id with
  | none =>
    rw [hget] at h
    cases h
    cases hd
  | some found =>
    rw [hget] at h
    cases h
    exact Table.mem_values_of_get? hget

/-! ## Stores on files -/

/-- A text that is found at a path is that of a file. -/
private theorem FileTree.mem_values_of_look {t : FileTree} {path text : String}
    (h : t.look path = .ok (.file text)) : text ∈ t.files.values := by
  obtain ⟨x, -, h⟩ := bind_eq_ok.mp h
  split at h
  · -- a path that ends in dots leads to a directory at best
    obtain ⟨_, -, h⟩ := bind_eq_ok.mp h
    cases h
  · split at h
    · cases h
    · rename_i hentry
      split at h
      · cases h
      · cases h
        exact Table.mem_values_of_get? (get?_of_file hentry)
    · cases h

/-- A text that is read at a path is that of a file. -/
private theorem FileTree.mem_values_of_read {t : FileTree} {path text : String}
    (h : t.read path = .ok text) : text ∈ t.files.values := by
  obtain ⟨entry, hlook, h⟩ := bind_eq_ok.mp h
  cases entry with
  | directory => cases h
  | file text' =>
    cases h
    exact mem_values_of_look hlook

/-- A definition that is read at a path is that of a file. -/
private theorem FileTree.mem_yamlDocuments {t : FileTree} {path : String} {definition : Tree}
    (h : t.readYaml path = .ok definition) : definition ∈ t.yamlDocuments := by
  unfold FileTree.readYaml at h
  -- a definition that was read is the tree of a text in the table of files
  cases hread : t.read path with
  | error fault => simp [hread] at h
  | ok text =>
    simp only [hread] at h
    cases hparse : Yaml.readTree text with
    | error fault => simp [hparse] at h
    | ok tree =>
      rw [hparse] at h
      cases h
      have hsome : (Yaml.readTree text).toOption = some definition := by
        rw [hparse]
        rfl
      exact List.mem_filterMap.mpr ⟨text, mem_values_of_read hread, hsome⟩

/-- **A store on files lists the definitions of all its files**, though it may never be asked for
some of them. -/
theorem FileStore.source_complete (s : FileStore) : s.source.Complete := by
  intro id definition h hd
  simp only [FileStore.source, FileStore.fetch] at h ⊢
  split at h
  · cases hread : s.files.readYaml (FileStore.pathOf s.root id) with
    | error e => simp [hread] at h
    | ok found =>
      rw [hread] at h
      cases h
      exact FileTree.mem_yamlDocuments hread
  -- a missing file yields the map without entries, which is excluded
  · cases h
    cases hd

end ModelGraph
