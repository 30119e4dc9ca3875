import ModelGraph.Document.Reader

/-!
# Entries of documents

A map that is read from a document is made of the entries that the document lists, one after the
other, so that a repeated key has its last value at its first place.

- `Context.entries`: the entries that a document lists, repeated keys included.
- `readEntries_map`: entries may be collected in one way or in another.
- `run_orderedMap`: a map read from a document is made of the entries listed in it.
-/

namespace ModelGraph.Document

variable {σ α β γ δ : Type} (c : Context σ)

/-- A reader with its value changed. -/
def Reader.map (f : α → β) (read : Reader σ α) : Reader σ β := fun s =>
  (read s).map fun p => (f p.1, p.2)

/-- The entries of a map in the order in which the document lists them, with every repeated key. It
is read as the map is, but nothing is put in the place of anything else. -/
def Context.entries (value : Nat → Reader σ α) : Nat → Reader σ (List (String × α))
  | levels => c.resolve fun s =>
    match s.rest with
    | .openMap _ :: rest =>
      match levels with
      | 0 => .error .malformed
      | inner + 1 =>
        let entry (key : String) (sofar : List (String × α)) : Reader σ (List (String × α)) :=
          fun s => do
            let (v, s) ← value inner s
            .ok (sofar ++ [(key, v)], s)
        readEntries c.text entry c.fuel [] { s with rest }
    | event :: rest =>
      if c.standsEmpty event then .ok ([], { s with rest }) else .error .malformed
    | [] => .error .malformed

/-- A value may be changed before or after what it refers to has been found. -/
theorem resolve_map (f : α → β) (read : Reader σ α) :
    c.resolve (read.map f) = (c.resolve read).map f := by
  funext s
  simp only [Reader.map, Context.resolve]
  split
  -- behind a reference the same place is read by both
  · rename_i slot rest _
    cases c.jump slot s.jumps with
    | error e => rfl
    | ok target =>
      simp only [bind, Except.bind]
      cases read target <;> rfl
  · rfl

/-- If the entries that have been collected in one way determine those collected in another way, and
each entry keeps this so, then it is so at the end. -/
theorem readEntries_map {key : Reader σ δ} {entry : δ → α → Reader σ α}
    {entry' : δ → β → Reader σ β}
    (f : α → β) (h : ∀ k sofar, entry' k (f sofar) = (entry k sofar).map f) (fuel : Nat) :
    ∀ sofar, readEntries key entry' fuel (f sofar) = (readEntries key entry fuel sofar).map f := by
  induction fuel with
  | zero => exact fun sofar => rfl
  | succ fuel ih =>
    intro sofar
    funext s
    simp only [readEntries, Reader.map]
    split
    · rfl
    · rfl
    · -- both read the same key, and after it entries that correspond
      cases key s with
      | error e => rfl
      | ok k =>
        simp only [bind, Except.bind, h k.1 sofar, Reader.map]
        cases entry k.1 sofar k.2 with
        | error e => rfl
        | ok next => exact congrFun (ih next.1) next.2

/-- A map is read as it is made of the entries that are listed. So nothing about the order of keys
has to be said of the reader itself. -/
theorem orderedMap_eq (value : Nat → Reader σ α) (levels : Nat) :
    c.orderedMap value levels = (c.entries value levels).map OrderedMap.ofList := by
  unfold Context.orderedMap Context.entries
  rw [← resolve_map]
  refine congrArg c.resolve (funext fun ⟨rest, jumps⟩ => ?_)
  cases rest with
  | nil => rfl
  | cons event rest =>
    cases event with
    | openMap marked =>
      cases levels with
      | zero => rfl
      | succ inner =>
        -- each entry is set in the map, and comes last in the list
        refine congrFun (readEntries_map OrderedMap.ofList (fun key sofar => ?_) c.fuel []) _
        funext s
        simp only [Reader.map, bind, Except.bind]
        cases value inner s with
        | error e => rfl
        | ok v => simp [Except.map, OrderedMap.ofList]
    -- a value that stands for nothing is a map without entries, and anything else is none
    | _ =>
      simp only [Reader.map]
      split <;> rfl

/-- **A map read from a document is made of the entries listed in it.** -/
theorem run_orderedMap (value : Nat → Reader σ α) :
    c.run (c.orderedMap value) = (c.run (c.entries value)).map OrderedMap.ofList := by
  simp only [Context.run, orderedMap_eq, Reader.map]
  cases c.entries value c.format.levels ⟨c.source.events, 0⟩ with
  | error e => rfl
  | ok entries =>
    simp only [bind, Except.bind, Except.map]
    -- whether something is left behind the map is decided alike on both sides
    split <;> rfl

end ModelGraph.Document
