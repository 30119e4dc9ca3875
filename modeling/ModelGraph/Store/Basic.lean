import ModelGraph.Store.Id

/-!
# Model stores

What is asked of a store of component definitions: to fetch a definition by its identity, where the
document without entries stands for a definition that is not there, and to take in a definition
under the identity that it declares.

- `ModelStore`: a kind of store.
- `DefinitionSource`: what a store answers as long as nothing is put into it.
-/

namespace ModelGraph

/-- A kind of store. Fetching may change what the store notes about itself, so both operations
answer with the store after them. -/
class ModelStore (σ : Type) where
  /-- The definition with an identity. -/
  fetch : σ → ComponentId → Except StoreError Tree × σ
  /-- A definition taken in. -/
  put : σ → Tree → Except StoreError Unit × σ

/-- Definitions by their identities. `documents` holds at least every definition that can be fetched
and is not empty, which bounds how deep components can nest. -/
structure DefinitionSource where
  fetch : ComponentId → Except StoreError Tree
  documents : List Tree

/-- What the source answers. A definition that cannot be fetched counts as an empty one, so a store
that fails is treated like one that does not have the component. -/
def DefinitionSource.answer (s : DefinitionSource) (id : ComponentId) : Tree :=
  ((s.fetch id).toOption).getD Tree.emptyMap

/-- Every definition that can be fetched is among the documents, unless it is empty. -/
def DefinitionSource.Complete (s : DefinitionSource) : Prop :=
  ∀ id definition, s.fetch id = .ok definition → definition.isEmpty = false →
    definition ∈ s.documents

end ModelGraph
