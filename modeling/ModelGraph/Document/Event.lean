/-!
# Document events

A document in one of the text formats, read from front to back: leaves, the beginnings and ends of
sequences and maps, and references to places earlier in the document. What a leaf is depends on
the format.

- `Source`: the events of a document with the places that references lead to.
- `Format`: how a format reads its leaves.
-/

namespace ModelGraph.Document

/-- One step of a document. A container that carries a tag of its own kind is `marked`. `absent` is
the only event of a document without any content. -/
inductive Event (σ : Type) where
  | leaf (value : σ)
  | openSeq (marked : Bool)
  | closeSeq
  | openMap (marked : Bool)
  | closeMap
  | reference (slot : Nat)
  | absent
  deriving DecidableEq, Repr

/-- The events of a document. A reference names a slot, and the slot a position among the events.
The events of a faulty text end where the fault is. -/
structure Source (σ : Type) where
  events : List (Event σ)
  slots : List (Nat × Nat)
  faulty : Bool

/-- How an optional value begins: with nothing, with a value, or with a leaf that may be neither. -/
inductive Presence where
  | missing
  | present
  | faulty
  deriving DecidableEq, Repr

end ModelGraph.Document
