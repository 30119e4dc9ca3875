import ModelGraph.Document.Reader
import ModelGraph.Json.Grammar
import ModelGraph.Json.Number

/-!
# Reading JSON

JSON as a document format. `null` is the blank text, containers nest at most 127 deep, and a record
may be written as an array of its fields.
-/

namespace ModelGraph.Json

open ModelGraph.Document

/-- A leaf of a tree. -/
def Leaf.scalar? : Leaf → Option Scalar
  | .null => some (.text "")
  | .bool value => some (.bool value)
  | .number n => n.scalar?
  | .string value => value.map .text

/-- A text. -/
def Leaf.text? : Leaf → Option String
  | .string value => value
  | _ => none

/-- A signed 64-bit number. -/
def Leaf.integer? : Leaf → Option Int64
  | .number n => n.integer?
  | _ => none

/-- A floating point number; integers are rounded to one. -/
def Leaf.float? : Leaf → Option Binary64
  | .number n => n.scalar?.bind fun s => (Tree.scalar s).float?
  | _ => none

/-- A truth value. -/
def Leaf.bool? : Leaf → Option Bool
  | .bool value => some value
  | _ => none

/-- JSON as a document format. -/
def format : Format Leaf where
  levels := 127
  scalar := Leaf.scalar?
  text := Leaf.text?
  integer := Leaf.integer?
  float := Leaf.float?
  bool := Leaf.bool?
  presence := fun l => if l = .null then .missing else .present
  blank := fun _ => false
  rows := .exact

/-- The events of a text as a source; a text that breaks the grammar has none. -/
def source (text : String) : Source Leaf :=
  match events? text.toList with
  | some events => ⟨events, [], false⟩
  | none => ⟨[], [], true⟩

/-- A text as something to read from. -/
def context (text : String) : Context Leaf := ⟨format, source text⟩

/-- The tree written in a JSON text. -/
def readTree (text : String) : Except Fault Tree :=
  let c := context text
  c.run c.tree

end ModelGraph.Json
