import Mathlib.Data.Set.Card
import Mathlib.Logic.Function.Basic
import ModelGraph.Proofs.Document.Entries
import ModelGraph.Proofs.OrderedMap

/-!
# Ordered maps as functions with a history

An ordered map does what a function from keys to values does which in addition remembers when each
of its keys came. Edits of every kind are made on both sides, in any number and in any order: both
give the same answers, and the entries of the map stand in the order of the moments remembered.

- `Edit`, `OrderedMap.edit`, `OrderedMap.edits`: what callers do with a map.
- `Ledger`: the values of keys, with the moments at which the keys came.
- `Refines`, `Refines.edit`, `Refines.edits`: the relation between the two, kept by one edit and by
  any number of them.
- `edits_agree`: everything that a caller sees of the map is what the ledger says.
-/

namespace ModelGraph.OrderedMap

open Document

variable {α : Type}

/-! ## Edits -/

/-- What a caller does with a map. What is done to the entries is told by a function of key and
value; as no two entries have the same key, a caller may still treat each entry in its own way. -/
inductive Edit (α : Type) : Type 1 where
  /-- A key set to a value. -/
  | insert (key : String) (value : α)
  /-- A key set to a value if it has none. -/
  | insertIfNew (key : String) (value : α)
  /-- A key taken out. -/
  | remove (key : String)
  /-- The value of a key, which gets one if it has none, changed through a reference. -/
  | getOrInsert (key : String) (fallback : α) (change : α → α)
  /-- The value of a key, if it has one, changed through a reference. -/
  | change (key : String) (change : α → α)
  /-- Each entry kept with a new value, or taken out. -/
  | retain (keep : String → α → Option α)
  /-- Each value changed through a reference. -/
  | changeAll (change : String → α → α)
  /-- The whole map made anew of entries. -/
  | rebuild (entries : List (String × α))
  /-- The whole map read from a document; it stays as it is if the document has a fault. -/
  | parse {σ : Type} (document : Context σ) (value : Nat → Reader σ α)

/-- What a caller is told. Each edit has one kind of answer, so that two edits with different
answers are told apart even where the values are the same. -/
inductive Answer (α : Type) where
  | nothing
  /-- The value that a key had before. -/
  | earlier (value : Option α)
  /-- Whether a key was set. -/
  | isSet (new : Bool)
  /-- The value behind a reference. -/
  | behind (value : α)
  /-- The fault of a document. -/
  | fault (fault : Fault)

/-- One edit of a map. It is made of the operations as callers find them: where an operation changes
and answers at once, the answer and the map are taken from the same call. -/
def edit (m : OrderedMap α) : Edit α → Answer α × OrderedMap α
  | .insert key value =>
    let (old, m) := m.exchange key value
    (.earlier old, m)
  | .insertIfNew key value =>
    let (new, m) := m.addNew key value
    (.isSet new, m)
  | .remove key =>
    let (old, m) := m.take key
    (.earlier old, m)
  | .getOrInsert key fallback change =>
    let (value, m) := m.slot key fallback
    (.behind value, m.modify key change)
  | .change key change => (.earlier (m.get? key), m.modify key change)
  | .retain keep => (.nothing, m.filterMapValues keep)
  | .changeAll change => (.nothing, m.mapValues change)
  | .rebuild entries => (.nothing, ofList entries)
  | .parse document value =>
    match document.run (document.orderedMap value) with
    | .ok m => (.nothing, m)
    | .error fault => (.fault fault, m)

/-- Edits one after the other, with the answers to them. -/
def edits (m : OrderedMap α) : List (Edit α) → List (Answer α) × OrderedMap α
  | [] => ([], m)
  | e :: rest =>
    let (answer, m) := m.edit e
    let (answers, m) := m.edits rest
    (answer :: answers, m)

end OrderedMap

/-! ## Ledgers -/

/-- The values of keys. For each key that has a value, `since` is the moment at which it came: that
of the edit which gave it a value when it had none. There is no order and no list of entries in a
ledger; the order of the keys is that of these moments. -/
structure Ledger (α : Type) where
  value : String → Option α
  since : String → Nat
  clock : Nat

namespace Ledger

open OrderedMap Document

variable {α : Type}

/-- No key has a value yet. -/
def fresh : Ledger α := ⟨fun _ => none, fun _ => 0, 0⟩

/-- A key set to a value. A key that has a value stays as old as it is, and any other key is as old
as this moment. -/
def put (a : Ledger α) (key : String) (value : α) : Ledger α where
  value := Function.update a.value key (some value)
  since := if (a.value key).isSome then a.since else Function.update a.since key a.clock
  clock := a.clock + 1

/-- The value of each key changed or taken away, each on its own. Keys that go leave their moments
behind, which mean nothing until the key comes again. -/
def each (a : Ledger α) (f : String → α → Option α) : Ledger α :=
  { a with value := fun key => (a.value key).bind (f key) }

/-- A repeated key has its last value, and came at its first place. All that was there before is
gone, and the new moments are later than all earlier ones. -/
def restart (a : Ledger α) (entries : List (String × α)) : Ledger α where
  value key := entries.reverse.lookup key
  since key := a.clock + (entries.map Prod.fst).idxOf key
  clock := a.clock + entries.length

/-- One edit of a ledger. -/
def edit (a : Ledger α) : Edit α → Answer α × Ledger α
  | .insert key value => (.earlier (a.value key), a.put key value)
  | .insertIfNew key value =>
    match a.value key with
    | some _ => (.isSet false, a)
    | none => (.isSet true, a.put key value)
  | .remove key =>
    (.earlier (a.value key), { a with value := Function.update a.value key none })
  | .getOrInsert key fallback change =>
    let value := (a.value key).getD fallback
    (.behind value, a.put key (change value))
  | .change key change =>
    (.earlier (a.value key),
      { a with value := Function.update a.value key ((a.value key).map change) })
  | .retain keep => (.nothing, a.each keep)
  | .changeAll change => (.nothing, a.each fun key value => some (change key value))
  | .rebuild entries => (.nothing, a.restart entries)
  | .parse document value =>
    match document.run (document.entries value) with
    | .ok entries => (.nothing, a.restart entries)
    | .error fault => (.fault fault, a)

/-- Edits one after the other, with the answers to them. -/
def edits (a : Ledger α) : List (Edit α) → List (Answer α) × Ledger α
  | [] => ([], a)
  | e :: rest =>
    let (answer, a) := a.edit e
    let (answers, a) := a.edits rest
    (answer :: answers, a)

/-! ### What is remembered -/

/-- The keys that have a value. -/
def domain (a : Ledger α) : Set String := {key | (a.value key).isSome}

/-- Setting a key changes the value of this key alone. -/
theorem value_put (a : Ledger α) (key k : String) (value : α) :
    (a.put key value).value k = if k = key then some value else a.value k :=
  Function.update_apply ..

/-- Setting a key that has a value changes no moment. -/
theorem since_put_of_old {a : Ledger α} {key : String} (h : (a.value key).isSome) (value : α) :
    (a.put key value).since = a.since :=
  if_pos h

/-- Setting a new key makes this moment its own, and no other key is any older or younger for it. -/
theorem since_put_of_new {a : Ledger α} {key : String} (h : ¬ (a.value key).isSome) (value : α)
    (k : String) : (a.put key value).since k = if k = key then a.clock else a.since k := by
  rw [put, if_neg h]
  exact Function.update_apply ..

end Ledger

namespace OrderedMap

variable {α : Type} {m : OrderedMap α} {a : Ledger α}

/-! ## The relation -/

/-- A map holds what a ledger says: the keys have the same values, and stand in the order in which
they came, all of them in the past. The last condition is what keeps the order when a new key comes,
whose moment is the present one. -/
structure Refines (m : OrderedMap α) (a : Ledger α) : Prop where
  value : ∀ key, m.get? key = a.value key
  order : m.keys.Pairwise fun k l => a.since k < a.since l
  past : ∀ key ∈ m.keys, a.since key < a.clock

namespace Refines

/-- No moment is before itself, so no key occurs twice. -/
theorem distinct (h : Refines m a) : m.Distinct :=
  h.order.imp fun hlt heq => (heq ▸ hlt).false

/-- The keys of the map are those that have a value in the ledger. -/
theorem mem_keys (h : Refines m a) (key : String) : key ∈ m.keys ↔ (a.value key).isSome := by
  rw [← contains_iff, contains, h.value]

/-- The map without entries holds what the ledger says before the first edit. -/
theorem fresh : Refines (empty : OrderedMap α) Ledger.fresh where
  value _ := rfl
  order := List.Pairwise.nil
  past _ h := by cases h

/-! ## One edit -/

/-- Edits that only take keys out, or change values in place, leave the moments alone. -/
theorem of_sublist (h : Refines m a) {n : OrderedMap α} (hkeys : n.keys.Sublist m.keys)
    {value : String → Option α} (hvalue : ∀ key, n.get? key = value key) :
    Refines n { a with value } where
  value := hvalue
  order := h.order.sublist hkeys
  past key hk := h.past key (hkeys.subset hk)

/-- A key that has a value keeps its moment when it is set. -/
theorem put_of_mem (h : Refines m a) {n : OrderedMap α} {key : String} (hk : key ∈ m.keys)
    (value : α) (hkeys : n.keys = m.keys)
    (hvalue : ∀ k, n.get? k = if k = key then some value else m.get? k) :
    Refines n (a.put key value) := by
  -- neither the keys nor their moments change, only the value of one key does
  have hsince := Ledger.since_put_of_old ((h.mem_keys key).mp hk) value
  refine ⟨fun k => ?_, ?_, fun k hmem => ?_⟩
  · rw [hvalue, h.value, Ledger.value_put]
  · rw [hkeys, hsince]
    exact h.order
  · rw [hsince]
    exact Nat.lt_succ_of_lt (h.past k (hkeys ▸ hmem))

/-- A new key comes last, and its moment is after those of the others. So the order of the moments
is still that of the entries. -/
theorem put_of_new (h : Refines m a) {n : OrderedMap α} {key : String} (hk : key ∉ m.keys)
    (value : α) (hkeys : n.keys = m.keys ++ [key])
    (hvalue : ∀ k, n.get? k = if k = key then some value else m.get? k) :
    Refines n (a.put key value) := by
  have hsince := Ledger.since_put_of_new (fun hs => hk ((h.mem_keys key).mpr hs)) value
  have hnew : (a.put key value).since key = a.clock := by rw [hsince, if_pos rfl]
  -- the other keys keep their moments, all of which are in the past
  have hold : ∀ k ∈ m.keys, (a.put key value).since k = a.since k := fun k hmem => by
    have hne : k ≠ key := fun heq => hk (heq ▸ hmem)
    rw [hsince, if_neg hne]
  refine ⟨fun k => ?_, ?_, fun k hmem => ?_⟩
  · rw [hvalue, h.value, Ledger.value_put]
  · rw [hkeys]
    refine List.pairwise_append.mpr ⟨?_, List.pairwise_singleton _ _, fun k hmem l hl => ?_⟩
    · exact h.order.imp_of_mem fun hx hy hlt => by rwa [hold _ hx, hold _ hy]
    · rw [List.mem_singleton.mp hl, hnew, hold k hmem]
      exact h.past k hmem
  · change _ < a.clock + 1
    rw [hkeys, List.mem_append, List.mem_singleton] at hmem
    rcases hmem with hmem | rfl
    · rw [hold k hmem]
      exact Nat.lt_succ_of_lt (h.past k hmem)
    · rw [hnew]
      exact Nat.lt_succ_self _

/-- A key set to a value, whether it is new or not. The two laws of `insert` are all that is asked
of the map, so other ways to set a key fall under this as well. -/
theorem put (h : Refines m a) {n : OrderedMap α} (key : String) (value : α)
    (hkeys : n.keys = if key ∈ m.keys then m.keys else m.keys ++ [key])
    (hvalue : ∀ k, n.get? k = if k = key then some value else m.get? k) :
    Refines n (a.put key value) := by
  by_cases hk : key ∈ m.keys
  · exact h.put_of_mem hk value (hkeys.trans (if_pos hk)) hvalue
  · exact h.put_of_new hk value (hkeys.trans (if_neg hk)) hvalue

/-- A map made anew of entries, at whatever moment this happens. -/
theorem restart (a : Ledger α) (entries : List (String × α)) :
    Refines (ofList entries) (a.restart entries) where
  value := get?_ofList entries
  order := (pairwise_keys_ofList entries).imp fun hlt => Nat.add_lt_add_left hlt _
  past key hk := by
    have hlt := List.idxOf_lt_length_of_mem ((mem_keys_ofList entries key).mp hk)
    rw [List.length_map] at hlt
    exact Nat.add_lt_add_left hlt _

/-- **One edit**: the map and the ledger give the same answer, and go on holding the same. There is
one case for each kind of edit, and each comes down to one of the lemmas above. -/
theorem edit (h : Refines m a) (e : Edit α) :
    (m.edit e).1 = (a.edit e).1 ∧ Refines (m.edit e).2 (a.edit e).2 := by
  cases e with
  | insert key value =>
    refine ⟨congrArg Answer.earlier (h.value key), ?_⟩
    exact h.put key value (keys_insert m key value) (get?_insert m key · value)
  | insertIfNew key value =>
    simp only [OrderedMap.edit, addNew, Ledger.edit]
    cases hv : a.value key with
    | some v =>
      -- the key has a value, so neither side does anything
      have hold : m.contains key = true := by rw [contains, h.value, hv, Option.isSome_some]
      rw [insertIfNew, if_pos hold, hold]
      exact ⟨rfl, h⟩
    | none =>
      have hnew : m.contains key = false := by rw [contains, h.value, hv, Option.isSome_none]
      rw [hnew]
      refine ⟨rfl, h.put key value (keys_insertIfNew m key value) fun k => ?_⟩
      rw [get?_insertIfNew, h.value key, hv, Option.getD_none]
  | remove key =>
    -- only the first entry of the key is taken out, but there is no other
    refine ⟨congrArg Answer.earlier (h.value key), h.of_sublist (n := m.erase key) ?_ fun k => ?_⟩
    · exact (m.entries_erase_sublist key).map Prod.fst
    · rw [h.distinct.get?_erase, h.value, Function.update_apply]
  | getOrInsert key fallback change =>
    simp only [OrderedMap.edit, slot, Ledger.edit, h.value]
    -- the value is set first and changed afterwards, which is the same as setting it changed
    refine ⟨trivial, h.put key _ ?_ fun k => ?_⟩
    · rw [keys_modify, keys_insertIfNew]
    · rw [get?_modify, get?_insertIfNew, h.value key]
      split <;> rfl
  | change key change =>
    refine ⟨congrArg Answer.earlier (h.value key),
      h.of_sublist (n := m.modify key change) ?_ fun k => ?_⟩
    · rw [keys_modify]
    · rw [get?_modify, Function.update_apply, h.value]
      split
      · rename_i hk
        rw [hk]
      · rfl
  | retain keep =>
    refine ⟨rfl, h.of_sublist (keys_filterMapValues_sublist m keep) fun k => ?_⟩
    rw [h.distinct.get?_filterMapValues, h.value]
  | changeAll change =>
    refine ⟨rfl, h.of_sublist (n := m.mapValues change) ?_ fun k => ?_⟩
    · rw [keys_mapValues]
    · rw [get?_mapValues, h.value, Option.map_eq_bind]
      rfl
  | rebuild entries => exact ⟨rfl, restart a entries⟩
  | parse document value =>
    -- what is read is made of the entries that the document lists
    simp only [OrderedMap.edit, Ledger.edit, Document.run_orderedMap]
    cases document.run (document.entries value) with
    | ok entries => exact ⟨rfl, restart a entries⟩
    | error fault => exact ⟨rfl, h⟩

/-! ## Any number of edits -/

/-- **Any number of edits**, by induction on them. -/
theorem edits (h : Refines m a) (es : List (Edit α)) :
    (m.edits es).1 = (a.edits es).1 ∧ Refines (m.edits es).2 (a.edits es).2 := by
  induction es generalizing m a with
  | nil => exact ⟨rfl, h⟩
  | cons e rest ih =>
    -- the first edit leaves both in step, so the rest begins as this one did
    obtain ⟨hanswer, hnext⟩ := h.edit e
    obtain ⟨hanswers, hlast⟩ := ih hnext
    exact ⟨congrArg₂ List.cons hanswer hanswers, hlast⟩

end Refines

/-! ## What a caller sees -/

/-- Everything that a caller sees of a map is what a ledger says: single values, the number of
entries, the entries themselves, and their order. -/
structure Agrees (m : OrderedMap α) (a : Ledger α) : Prop where
  distinct : m.Distinct
  get?_eq : ∀ key, m.get? key = a.value key
  contains_eq : ∀ key, m.contains key = (a.value key).isSome
  finite : a.domain.Finite
  size_eq : m.size = a.domain.ncard
  mem_toList : ∀ key value, (key, value) ∈ m.toList ↔ a.value key = some value
  order : m.keys.Pairwise fun k l => a.since k < a.since l

/-- What a caller sees follows from the relation, which speaks of values and of the order alone. So
it is enough to show that every edit keeps the relation. -/
theorem Refines.agrees (h : Refines m a) : Agrees m a := by
  -- the keys that have a value are finitely many, because they are those of the map
  have hdomain : a.domain = m.keys.toFinset := by
    ext key
    rw [List.coe_toFinset]
    exact (h.mem_keys key).symm
  exact {
    distinct := h.distinct
    get?_eq := h.value
    contains_eq := fun key => congrArg Option.isSome (h.value key)
    finite := hdomain ▸ Finset.finite_toSet _
    size_eq := by
      rw [hdomain, Set.ncard_coe_finset, List.toFinset_card_of_nodup h.distinct, length_keys]
    mem_toList := fun key value => by rw [← h.value, h.distinct.get?_eq_some_iff, toList]
    order := h.order }

/-- **An ordered map is a function that remembers when its keys came.** Whatever is done to a map
that was empty, its callers are told what the ledger tells them, and see in it what the ledger says.
A key that is set again stays where it is, and one that is taken out leaves the others in their
order. -/
theorem edits_agree (es : List (Edit α)) :
    let m := (empty : OrderedMap α).edits es
    let a := (Ledger.fresh : Ledger α).edits es
    m.1 = a.1 ∧ Agrees m.2 a.2 ∧
      (∀ key ∈ m.2.keys, ∀ value, (m.2.insert key value).keys = m.2.keys) ∧
      ∀ key, (m.2.erase key).keys = m.2.keys.erase key := by
  -- everything is read off the relation, which holds at the start and is kept
  obtain ⟨hanswers, hm⟩ := Refines.fresh.edits es
  refine ⟨hanswers, hm.agrees, fun key hk value => ?_, keys_erase _⟩
  rw [keys_insert, if_pos hk]

end OrderedMap
end ModelGraph
