/-!
# Ordered maps

A map from text keys to values that lists its entries in the order in which the keys first came.
Replacing the value of a key keeps the key at its place, and removing a key keeps the order of the
rest.

- `OrderedMap.Distinct`: no key occurs twice. Every operation keeps it.
- `exchange`, `addNew`, `take`, `slot`: the operations that also answer what was there before.
-/

namespace ModelGraph

universe u v

/-- Entries in the order of the first insertion of their keys. -/
structure OrderedMap (α : Type u) where
  entries : List (String × α)
  deriving DecidableEq, Repr

namespace OrderedMap

variable {α : Type u} {β : Type v}

/-! ## Views -/

/-- The map without entries. -/
def empty : OrderedMap α := ⟨[]⟩

instance : Inhabited (OrderedMap α) := ⟨empty⟩

/-- The number of entries. -/
def size (m : OrderedMap α) : Nat := m.entries.length

/-- There is no entry. -/
def isEmpty (m : OrderedMap α) : Bool := m.entries.isEmpty

/-- The keys in order. -/
def keys (m : OrderedMap α) : List String := m.entries.map Prod.fst

/-- The values in the order of their keys. -/
def values (m : OrderedMap α) : List α := m.entries.map Prod.snd

/-- No key occurs twice. -/
def Distinct (m : OrderedMap α) : Prop := m.keys.Nodup

/-- The value of a key. It is the first entry with the key that counts, and among distinct keys
there is no other. -/
def get? (m : OrderedMap α) (key : String) : Option α := m.entries.lookup key

/-- The key has a value. -/
def contains (m : OrderedMap α) (key : String) : Bool := (m.get? key).isSome

/-! ## Changing one entry -/

/-- Entries with the value of the first occurrence of a key changed. -/
def modifyEntries (key : String) (f : α → α) : List (String × α) → List (String × α)
  | [] => []
  | (k, v) :: rest => if k = key then (k, f v) :: rest else (k, v) :: modifyEntries key f rest

/-- Entries without the first occurrence of a key. -/
def eraseEntries (key : String) : List (String × α) → List (String × α)
  | [] => []
  | (k, v) :: rest => if k = key then rest else (k, v) :: eraseEntries key rest

/-- The value of a key changed in place; nothing happens to a key without a value. -/
def modify (m : OrderedMap α) (key : String) (f : α → α) : OrderedMap α :=
  ⟨modifyEntries key f m.entries⟩

/-- A key set to a value: in place, or at the end for a new key. -/
def insert (m : OrderedMap α) (key : String) (value : α) : OrderedMap α :=
  if m.contains key then m.modify key fun _ => value else ⟨m.entries ++ [(key, value)]⟩

/-- A new key set to a value, behind all other keys; a key that has one keeps it. -/
def insertIfNew (m : OrderedMap α) (key : String) (value : α) : OrderedMap α :=
  if m.contains key then m else ⟨m.entries ++ [(key, value)]⟩

/-- The map without a key. -/
def erase (m : OrderedMap α) (key : String) : OrderedMap α :=
  ⟨eraseEntries key m.entries⟩

/-! ## Changing one entry and answering -/

/-- Sets a key and answers its earlier value. -/
def exchange (m : OrderedMap α) (key : String) (value : α) : Option α × OrderedMap α :=
  (m.get? key, m.insert key value)

/-- Sets a new key only, and answers whether it was new. -/
def addNew (m : OrderedMap α) (key : String) (value : α) : Bool × OrderedMap α :=
  (!m.contains key, m.insertIfNew key value)

/-- Removes a key and answers its value. -/
def take (m : OrderedMap α) (key : String) : Option α × OrderedMap α :=
  (m.get? key, m.erase key)

/-- The value of a key, which is first set to `fallback` if it is new. -/
def slot (m : OrderedMap α) (key : String) (fallback : α) : α × OrderedMap α :=
  ((m.get? key).getD fallback, m.insertIfNew key fallback)

/-! ## All entries -/

/-- Every value changed, with its key at hand. -/
def mapValues (m : OrderedMap α) (f : String → α → β) : OrderedMap β :=
  ⟨m.entries.map fun (k, v) => (k, f k v)⟩

/-- Every entry either dropped or kept with a new value. -/
def filterMapValues (m : OrderedMap α) (f : String → α → Option β) : OrderedMap β :=
  ⟨m.entries.filterMap fun (k, v) => (f k v).map fun w => (k, w)⟩

/-- Entries inserted one after the other: a repeated key has its last value at its first place. -/
def ofList (entries : List (String × α)) : OrderedMap α :=
  entries.foldl (fun m (k, v) => m.insert k v) empty

/-- The entries in order. -/
def toList (m : OrderedMap α) : List (String × α) := m.entries

end OrderedMap
end ModelGraph
