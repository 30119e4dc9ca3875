import ModelGraph.OrderedMap
import ModelGraph.Toml.Literal

/-!
# TOML tables

The values of TOML, and how the tables of a document grow. A table remembers how it came to be,
because that decides what may be added to it later: a table between braces is complete, a table
with a header of its own gets its values below this header only, and a table that is merely passed
by a header may still get a header of its own.

- `Fields.assign?`: a value set by a key with dots.
- `Fields.define?`, `Fields.append?`: what a header adds.
-/

namespace ModelGraph.Toml

/-- How a table came to be: between braces, by a header of its own, on the way of a header to
another table, or on the way of a key with dots. -/
inductive Origin where
  | inline
  | header
  | implied
  | dotted
  deriving DecidableEq, Repr

/-- A value, or tables under a common header, of which the last one is still open. -/
inductive Item where
  | leaf (value : Leaf)
  | array (items : List Item)
  | table (origin : Origin) (fields : OrderedMap Item)
  | tables (earlier : List Item) (last : OrderedMap Item)

/-- The entries of a table. -/
abbrev Fields := OrderedMap Item

namespace Fields

/-- Changes the table at the end of a path. Tables that are missing are made; `made` is how they
come to be, and a table that is there is entered if `enters` allows it. -/
def change? (made : Origin) (enters : Origin → Bool) (f : Origin → Fields → Option Fields) :
    List String → Origin → Fields → Option Fields
  | [], origin, fields => f origin fields
  | key :: path, _, fields =>
    match fields.get? key with
    | none =>
      (change? made enters f path made .empty).map fun inner =>
        fields.insert key (.table made inner)
    | some (.table origin inner) =>
      if enters origin then
        (change? made enters f path origin inner).map fun inner =>
          fields.insert key (.table origin inner)
      else none
    -- of tables under a common header the last one is meant
    | some (.tables earlier last) =>
      (change? made enters f path .header last).map fun last =>
        fields.insert key (.tables earlier last)
    | some _ => none

/-- Changes the table that a header names. Only what is between braces is closed to a header. -/
def underHeader? (path : List String) (f : Origin → Fields → Option Fields) (fields : Fields) :
    Option Fields :=
  change? .implied (· != .inline) f path .header fields

/-- Sets a new key. A key with dots neither enters a table with a header of its own nor ends in a
table that is no work of such a key. -/
def assign? (path : List String) (key : String) (value : Item) (fields : Fields) : Option Fields :=
  let put (origin : Origin) (fields : Fields) : Option Fields :=
    if (origin = .dotted ↔ path ≠ []) ∧ !fields.contains key then some (fields.insert key value)
    else none
  change? .dotted (fun origin => origin = .implied || origin = .dotted) put path .header fields

/-- Adds the table of a header, which must be new or merely implied by others. -/
def define? (path : List String) (key : String) (fields : Fields) : Option Fields :=
  underHeader? path (fun _ fields =>
    match fields.get? key with
    | none => some (fields.insert key (.table .header .empty))
    | some (.table .implied inner) => some (fields.insert key (.table .header inner))
    | some _ => none) fields

/-- Adds one more table under a common header. -/
def append? (path : List String) (key : String) (fields : Fields) : Option Fields :=
  underHeader? path (fun _ fields =>
    match fields.get? key with
    | none => some (fields.insert key (.tables [] .empty))
    -- the table that was open is complete now
    | some (.tables earlier last) =>
      some (fields.insert key (.tables (earlier ++ [.table .header last]) .empty))
    | some _ => none) fields

end Fields
end ModelGraph.Toml
