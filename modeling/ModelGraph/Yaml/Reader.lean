import ModelGraph.Document.Reader
import ModelGraph.Yaml.Event
import ModelGraph.Yaml.Plain

/-!
# Reading YAML

YAML as a document format: the leaves with their tags and styles, and the places that aliases lead
to. Containers nest at most 128 deep.
-/

namespace ModelGraph.Yaml

open ModelGraph.Document

/-! ## Leaves -/

/-- A scalar of a document. -/
structure Leaf where
  tag : Tag
  style : Style
  text : String
  deriving DecidableEq, Repr

namespace Leaf

/-- The value of a scalar that no tag decides about: only plain scalars are more than texts. -/
def untagged? (l : Leaf) : Option Scalar :=
  if l.style = .plain then
    match Plain.Value.ofText l.text.toList with
    | .null => some (.text "")
    | .leaf value => some value
    | .outOfRange => none
  else some (.text l.text)

/-- The value of a scalar as a leaf of a tree. A tag for a standard type converts the text or
fails, a custom tag fails, and any other tag makes it a text. -/
def scalar? (l : Leaf) : Option Scalar :=
  let s := l.text.toList
  match l.tag with
  | .none => l.untagged?
  -- a tag that is no text is passed over, as if there were none
  | .garbled => l.untagged?
  | .bool => (Plain.bool? s).map .bool
  | .int => (Plain.integer? s).bind Plain.integerLeaf?
  | .float => (Plain.float? s).map .float
  | .null => if Plain.isNull s then some (.text "") else none
  | .custom => none
  | .other => some (.text l.text)

/-- A scalar that may be read as a value of a type: a plain one, or a literal one with the tag of
the type. -/
def isTyped (l : Leaf) (tag : Tag) : Bool :=
  l.style == .plain || (l.style == .literal && l.tag == tag)

/-- A signed 64-bit number. -/
def integer? (l : Leaf) : Option Int64 :=
  if l.isTyped .int then
    match (Plain.integer? l.text.toList).bind Plain.integerLeaf? with
    | some (.int value) => some value
    | _ => none
  else none

/-- A floating point number. -/
def float? (l : Leaf) : Option Binary64 :=
  if l.isTyped .float then Plain.float? l.text.toList else none

/-- A truth value. -/
def bool? (l : Leaf) : Option Bool :=
  if l.isTyped .bool then Plain.bool? l.text.toList else none

/-- Whether an optional value is there: it is missing for a plain scalar without text and for a
plain word for nothing. -/
def presence (l : Leaf) : Presence :=
  let s := l.text.toList
  if l.style ≠ .plain then .present
  else
    match l.tag with
    | .none => if s.isEmpty || Plain.isNull s then .missing else .present
    | .null => if Plain.isNull s then .missing else .faulty
    | _ => .present

/-- A plain scalar without text stands for an empty container. -/
def isBlank (l : Leaf) : Bool := l.style == .plain && l.text.isEmpty

end Leaf

/-- YAML as a document format. -/
def format : Format Leaf where
  levels := 128
  scalar := Leaf.scalar?
  text := fun l => some l.text
  integer := Leaf.integer?
  float := Leaf.float?
  bool := Leaf.bool?
  presence := Leaf.presence
  blank := Leaf.isBlank
  rows := .refused

/-! ## Aliases -/

/-- The slots of the anchors met so far. A name that is new gets the number of different names
before it as its slot, and so does a name that is used again. -/
structure Anchors where
  names : OrderedMap Nat
  slots : List (Nat × Nat)

/-- The anchors after one more, at a position among the events. -/
def Anchors.add (a : Anchors) (position : Nat) : Option String → Anchors
  | none => a
  | some name =>
    let slot := a.names.size
    ⟨a.names.insert name slot, (slot, position) :: a.slots⟩

/-- The events of a document with their aliases led to slots, the slots with the positions they lead
to, and whether every alias has an anchor before it. The events end at the first one without. -/
def linkFrom (anchors : Anchors) (position : Nat) :
    List Event → List (Document.Event Leaf) × List (Nat × Nat) × Bool
  | [] => ([], anchors.slots, true)
  | event :: rest =>
    let continueWith (anchors : Anchors) (e : Document.Event Leaf) :=
      let (others, result) := linkFrom anchors (position + 1) rest
      (e :: others, result)
    match event with
    | .alias name =>
      match anchors.names.get? name with
      | some slot => continueWith anchors (.reference slot)
      -- an alias may not lead to a place behind it
      | none => ([], anchors.slots, false)
    | .scalar properties style text =>
      continueWith (anchors.add position properties.anchor) (.leaf ⟨properties.tag, style, text⟩)
    | .openSeq properties =>
      continueWith (anchors.add position properties.anchor) (.openSeq (properties.tag == .custom))
    | .openMap properties =>
      continueWith (anchors.add position properties.anchor) (.openMap (properties.tag == .custom))
    | .closeSeq => continueWith anchors .closeSeq
    | .closeMap => continueWith anchors .closeMap
    | .absent => continueWith anchors .absent

/-- The events of a text as a source. -/
def source (text : String) : Source Leaf :=
  let (tokens, textOk) := Token.ofText text.toList
  let (events, eventsOk) := Event.ofTokens tokens
  -- a fault in any of the three stages is a fault of the text
  let (events, slots, aliasesOk) := linkFrom ⟨OrderedMap.empty, []⟩ 0 events
  ⟨events, slots, !(textOk && eventsOk && aliasesOk)⟩

/-- A text as something to read from. -/
def context (text : String) : Context Leaf := ⟨format, source text⟩

/-- The tree written in a YAML text. -/
def readTree (text : String) : Except Fault Tree :=
  let c := context text
  c.run c.tree

end ModelGraph.Yaml
