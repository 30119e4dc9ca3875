import ModelGraph.Document.Reader
import ModelGraph.Toml.Statement

/-!
# Reading TOML

TOML as a document format. There is no blank value, every text is a text only, a record may be
written as an array of its fields with more elements behind them, and a date where a record is
expected is one without fields.
-/

namespace ModelGraph.Toml

open ModelGraph.Document

/-! ## Events -/

mutual

/-- The events of a value. -/
def Item.events : Item → List (Event Leaf)
  | .leaf value => [.leaf value]
  | .array items => .openSeq false :: eventsOfItems items ++ [.closeSeq]
  | .table _ fields => .openMap false :: eventsOfFields fields.entries ++ [.closeMap]
  | .tables earlier last =>
    .openSeq false :: eventsOfItems earlier ++
      .openMap false :: eventsOfFields last.entries ++ [.closeMap, .closeSeq]

/-- The events of values one after the other. -/
def eventsOfItems : List Item → List (Event Leaf)
  | [] => []
  | item :: rest => item.events ++ eventsOfItems rest

/-- The events of entries one after the other. -/
def eventsOfFields : List (String × Item) → List (Event Leaf)
  | [] => []
  | (key, item) :: rest => .leaf (.text key) :: item.events ++ eventsOfFields rest

end

/-! ## The format -/

/-- A leaf of a tree. -/
def Leaf.scalar? : Leaf → Option Scalar
  | .text value => some (.text value)
  | .integer value => some (.int value)
  | .float value => some (.float value)
  | .bool value => some (.bool value)
  | .moment written => some (.text written)

/-- A text. -/
def Leaf.text? : Leaf → Option String
  | .text value => some value
  | _ => none

/-- A signed 64-bit number. -/
def Leaf.integer? : Leaf → Option Int64
  | .integer value => some value
  | _ => none

/-- A floating point number; integers are rounded to one. -/
def Leaf.float? : Leaf → Option Binary64
  | .float value => some value
  | .integer value => (Tree.scalar (.int value)).float?
  | _ => none

/-- A truth value. -/
def Leaf.bool? : Leaf → Option Bool
  | .bool value => some value
  | _ => none

/-- A date or a time. -/
def Leaf.isMoment : Leaf → Bool
  | .moment _ => true
  | _ => false

/-- TOML as a document format. A header, a key with dots and a value nest fewer than `depthLimit`
levels each. -/
def format : Format Leaf where
  levels := depthLimit * 3
  scalar := Leaf.scalar?
  text := Leaf.text?
  integer := Leaf.integer?
  float := Leaf.float?
  bool := Leaf.bool?
  presence := fun _ => .present
  blank := Leaf.isMoment
  rows := .loose

/-- The events of a text as a source; a text that breaks the grammar or contradicts itself has
none. -/
def source (text : String) : Source Leaf :=
  match (statements? text.toList).bind Draft.ofStatements? with
  | some fields => ⟨(Item.table .header fields).events, [], false⟩
  | none => ⟨[], [], true⟩

/-- A text as something to read from. -/
def context (text : String) : Context Leaf := ⟨format, source text⟩

end ModelGraph.Toml
