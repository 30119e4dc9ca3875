import ModelGraph.Store.Basic
import ModelGraph.Table

/-!
# Stores in memory

A table of definitions that counts how often it has been asked.
-/

namespace ModelGraph

/-- A table of definitions, with the number of fetches. Definitions are kept as they are, without
being written and read. -/
structure MemoryStore where
  definitions : Table ComponentId Tree
  fetches : Nat
  deriving Repr

namespace MemoryStore

/-- The store without definitions. -/
def empty : MemoryStore := ⟨Table.empty, 0⟩

/-- A definition set under an identity. -/
def insert (s : MemoryStore) (id : ComponentId) (definition : Tree) : MemoryStore :=
  { s with definitions := s.definitions.set id definition }

/-- The definition with an identity; it is empty where there is none. The identity is taken as it
is, with its domain in whatever case. -/
def definition (s : MemoryStore) (id : ComponentId) : Tree :=
  (s.definitions.get? id).getD Tree.emptyMap

/-- A definition taken in under the identity that it declares. -/
def put (s : MemoryStore) (definition : Tree) : Except StoreError Unit × MemoryStore :=
  match ComponentId.ofDefinition definition with
  | .ok id => (.ok (), s.insert id definition)
  | .error e => (.error e, s)

instance : ModelStore MemoryStore where
  fetch s id := (.ok (s.definition id), { s with fetches := s.fetches + 1 })
  put := put

/-- The definitions of the store as a source. -/
def source (s : MemoryStore) : DefinitionSource :=
  ⟨fun id => .ok (s.definition id), s.definitions.values⟩

end MemoryStore
end ModelGraph
