import ModelGraph.Document.Event
import ModelGraph.Tree.Inspect

/-!
# Reading documents

Values read from the events of a document: trees of any shape, and typed values such as texts,
numbers, lists and records with named fields. A reader takes events from the front of what is left
and says what is left after it.

- `readTree`: a tree; the keys of its maps are read as trees and turned into text.
- `readList`, `readFields`, `readRecord`: typed containers.
- `run`: a whole document, which must be free of faults behind the value as well.

Every reader is given the number of levels that may still be opened, so reading always ends.
-/

namespace ModelGraph.Document

/-! ## Faults -/

/-- Why a document cannot be read: its text or its shape is wrong, or a map in it has a container
as a key. -/
inductive Fault where
  | malformed
  | unsupportedKey (key : Tree)
  deriving Repr

/-- The message about a container that stands as a key. -/
def unsupportedKeyMessage (key : Tree) : String :=
  String.ofList ("Unsupported map key: ".toList ++ key.inspect ++ ". Keys must be scalars".toList)

/-! ## Formats -/

/-- Whether a sequence may stand for a record: never, as long as it has no more elements than the
record has fields, or with any elements behind the fields. -/
inductive Rows where
  | refused
  | exact
  | loose
  deriving DecidableEq, Repr

/-- How a format reads its leaves, and what it allows around them.

* `levels` bounds the nesting of containers that are read.
* `blank` says that a leaf stands for an empty container where a container is expected.
* `rows` says whether a record may be written as a sequence of its fields in their order.
-/
structure Format (σ : Type) where
  levels : Nat
  scalar : σ → Option Scalar
  text : σ → Option String
  integer : σ → Option Int64
  float : σ → Option Binary64
  bool : σ → Option Bool
  presence : σ → Presence
  blank : σ → Bool
  rows : Rows

/-- A document together with its format. -/
structure Context (σ : Type) where
  format : Format σ
  source : Source σ

/-- What is left to read, and how many references have been followed. -/
structure State (σ : Type) where
  rest : List (Event σ)
  jumps : Nat

/-- A reader of values. -/
abbrev Reader (σ : Type) (α : Type) := State σ → Except Fault (α × State σ)

variable {σ : Type} {α β : Type}

/-! ## References -/

/-- A document that consists of references to references could grow without bounds, so only a
hundred of them are followed for each event. -/
def Context.jumpLimit (c : Context σ) : Nat := c.source.events.length * 100

/-- A bound on the elements of a container: one more than there are events, so it is never used up
before the events are. -/
def Context.fuel (c : Context σ) : Nat := c.source.events.length + 1

/-- The place a reference leads to, with one more jump counted. There is none behind the limit, and
none for a slot without a place. -/
def Context.jump (c : Context σ) (slot jumps : Nat) : Except Fault (State σ) :=
  if jumps + 1 > c.jumpLimit then .error .malformed
  else
    match c.source.slots.lookup slot with
    | some position => .ok ⟨c.source.events.drop position, jumps + 1⟩
    | none => .error .malformed

/-- Reads what a reference leads to, and goes on behind the reference. -/
def Context.resolve (c : Context σ) (read : Reader σ α) : Reader σ α := fun s =>
  match s.rest with
  | .reference slot :: rest => do
    let (value, after) ← read (← c.jump slot s.jumps)
    -- the place that the reference leads to is left again, only the jumps stay counted
    .ok (value, ⟨rest, after.jumps⟩)
  | _ => read s

/-! ## Leaves -/

/-- A typed leaf. -/
def Context.leaf (c : Context σ) (value? : σ → Option α) : Reader σ α :=
  c.resolve fun s =>
    match s.rest with
    | .leaf value :: rest =>
      match value? value with
      | some a => .ok (a, { s with rest })
      | none => .error .malformed
    | _ => .error .malformed

/-- A text. -/
def Context.text (c : Context σ) : Reader σ String := c.leaf c.format.text

/-- A signed 64-bit number. -/
def Context.integer (c : Context σ) : Reader σ Int64 := c.leaf c.format.integer

/-- A floating point number. -/
def Context.float (c : Context σ) : Reader σ Binary64 := c.leaf c.format.float

/-- A truth value. -/
def Context.bool (c : Context σ) : Reader σ Bool := c.leaf c.format.bool

/-! ## Containers -/

/-- Elements up to the end of their sequence. -/
def readElements (element : Reader σ α) : Nat → Reader σ (List α)
  | 0 => fun _ => .error .malformed
  | fuel + 1 => fun s =>
    match s.rest with
    | .closeSeq :: rest => .ok ([], { s with rest })
    | [] => .error .malformed
    | _ => do
      let (first, s) ← element s
      let (others, s) ← readElements element fuel s
      .ok (first :: others, s)

/-- Entries up to the end of their map, given the entries read so far. What an entry does with these
is left to `entry`, so maps and records are read by the same loop. -/
def readEntries (key : Reader σ β) (entry : β → α → Reader σ α) : Nat → α → Reader σ α
  | 0, _ => fun _ => .error .malformed
  | fuel + 1, sofar => fun s =>
    match s.rest with
    | .closeMap :: rest => .ok (sofar, { s with rest })
    | [] => .error .malformed
    | _ => do
      let (k, s) ← key s
      let (sofar, s) ← entry k sofar s
      readEntries key entry fuel sofar s

/-- A leaf that stands for an empty container, or the absent content. -/
def Context.standsEmpty (c : Context σ) : Event σ → Bool
  | .leaf value => c.format.blank value
  | .absent => true
  | _ => false

/-- A sequence of values. -/
def Context.list (c : Context σ) (element : Nat → Reader σ α) : Nat → Reader σ (List α)
  | levels => c.resolve fun s =>
    match s.rest with
    | .openSeq _ :: rest =>
      -- a container takes one level for itself
      match levels with
      | 0 => .error .malformed
      | inner + 1 => readElements (element inner) c.fuel { s with rest }
    | event :: rest => if c.standsEmpty event then .ok ([], { s with rest }) else .error .malformed
    | [] => .error .malformed

/-- A map from texts to values; a repeated key has its last value at its first place. -/
def Context.orderedMap (c : Context σ) (value : Nat → Reader σ α) :
    Nat → Reader σ (OrderedMap α)
  | levels => c.resolve fun s =>
    match s.rest with
    | .openMap _ :: rest =>
      match levels with
      | 0 => .error .malformed
      | inner + 1 =>
        let entry (key : String) (sofar : OrderedMap α) : Reader σ (OrderedMap α) := fun s => do
          let (v, s) ← value inner s
          .ok (sofar.insert key v, s)
        -- a key has to be a text as it stands, unlike the keys of a tree
        readEntries c.text entry c.fuel OrderedMap.empty { s with rest }
    | event :: rest =>
      if c.standsEmpty event then .ok (OrderedMap.empty, { s with rest }) else .error .malformed
    | [] => .error .malformed

/-- An optional value: none for the absent content and for a leaf that says so, and otherwise the
value. -/
def Context.optional (c : Context σ) (read : Reader σ α) : Reader σ (Option α) :=
  c.resolve fun s =>
    let present := do
      let (value, s) ← read s
      .ok (some value, s)
    match s.rest with
    | .leaf value :: rest =>
      match c.format.presence value with
      | .missing => .ok (none, { s with rest })
      | .present => present
      | .faulty => .error .malformed
    | .absent :: rest => .ok (none, { s with rest })
    | [] => .error .malformed
    | _ => present

/-! ## Trees -/

/-- A tree, given the reader of the trees one level down if there is such a level. Where a map has
a container as a key, the value of the entry is read before the key is refused. -/
def Context.treeNode (c : Context σ) (inner : Option (Reader σ Tree)) : Reader σ Tree := fun s =>
  match s.rest, inner with
  | .leaf value :: rest, _ =>
    match c.format.scalar value with
    | some leaf => .ok (.scalar leaf, { s with rest })
    | none => .error .malformed
  | .absent :: rest, _ => .ok (.text "", { s with rest })
  -- a container with a tag of its own kind is no tree and comes to the last case
  | .openSeq false :: rest, some child => do
    let (items, s) ← readElements child c.fuel { s with rest }
    .ok (.seq items, s)
  | .openMap false :: rest, some child => do
    let entry (key : Tree) (sofar : OrderedMap Tree) : Reader σ (OrderedMap Tree) := fun s => do
      -- the value comes first, so a fault in it hides the one of the key
      let (value, s) ← child s
      match key.text? with
      | some name => .ok (sofar.insert name value, s)
      | none => .error (.unsupportedKey key)
    let (fields, s) ← readEntries child entry c.fuel OrderedMap.empty { s with rest }
    .ok (.map fields, s)
  | _, _ => .error .malformed

/-- A tree. -/
def Context.tree (c : Context σ) : Nat → Reader σ Tree
  | 0 => c.resolve (c.treeNode none)
  | inner + 1 => c.resolve (c.treeNode (some (c.tree inner)))

/-! ## Skipping -/

/-- What is left behind one value, whatever it is. `depth` counts the containers that are open. -/
def skipValue (depth : Nat) : List (Event σ) → Option (List (Event σ))
  | [] => none
  | event :: rest =>
    match event, depth with
    | .openSeq _, _ => skipValue (depth + 1) rest
    | .openMap _, _ => skipValue (depth + 1) rest
    | .closeSeq, depth + 2 => skipValue (depth + 1) rest
    | .closeMap, depth + 2 => skipValue (depth + 1) rest
    -- the last container that was open
    | .closeSeq, _ => some rest
    | .closeMap, _ => some rest
    | _, 0 => some rest
    | _, depth + 1 => skipValue (depth + 1) rest

/-- Passes over one value. References in it are not followed. -/
def skip : Reader σ Unit := fun s =>
  match skipValue 0 s.rest with
  | some rest => .ok ((), { s with rest })
  | none => .error .malformed

/-! ## Records -/

/-- A record with named fields. A draft collects the fields that have been read; each field knows
whether a draft has it already and how it is read into the draft. -/
structure FieldReader (σ : Type) (δ : Type) where
  name : String
  isSet : δ → Bool
  read : Nat → δ → Reader σ δ

/-- The fields of a record in their order, the empty draft, and the record made of a draft, unless
a field is missing. -/
structure RecordReader (σ : Type) (δ : Type) (α : Type) where
  start : δ
  fields : List (FieldReader σ δ)
  finish : δ → Option α

variable {δ : Type}

/-- A field read into a draft. -/
def field (name : String) (get : δ → Option α) (put : α → δ → δ) (read : Nat → Reader σ α) :
    FieldReader σ δ where
  name := name
  isSet := fun draft => (get draft).isSome
  read := fun levels draft s => do
    let (value, s) ← read levels s
    .ok (put value draft, s)

/-- One entry of a record: a known field may come once, an unknown one is passed over. -/
def RecordReader.entry (r : RecordReader σ δ α) (levels : Nat) (key : String) (draft : δ) :
    Reader σ δ := fun s =>
  match r.fields.find? (·.name == key) with
  -- a field that comes twice is refused, while the last value wins in a map
  | some f => if f.isSet draft then .error .malformed else f.read levels draft s
  -- the value may be anything, also what no reader would take
  | none => do
    let (_, s) ← skip s
    .ok (draft, s)

/-- Fields in their order up to the end of a sequence; the last ones may be left out. Behind the
fields there are further elements only if the row is `loose`. -/
def readRow (loose : Bool) (levels : Nat) : List (FieldReader σ δ) → δ → Reader σ δ
  | [], draft => fun s =>
    match s.rest with
    | .closeSeq :: rest => .ok (draft, { s with rest })
    | rest =>
      -- the sequence is open, so all is skipped up to its end
      match loose, skipValue 1 rest with
      | true, some rest => .ok (draft, { s with rest })
      | _, _ => .error .malformed
  | f :: others, draft => fun s =>
    match s.rest with
    | .closeSeq :: rest => .ok (draft, { s with rest })
    | _ => do
      let (draft, s) ← f.read levels draft s
      readRow loose levels others draft s

/-- The draft of a record. -/
def Context.draft (c : Context σ) (r : RecordReader σ δ α) : Nat → Reader σ δ
  | levels => c.resolve fun s =>
    match s.rest with
    | .openMap _ :: rest =>
      match levels with
      | 0 => .error .malformed
      | inner + 1 => readEntries c.text (r.entry inner) c.fuel r.start { s with rest }
    | .openSeq _ :: rest =>
      -- a sequence stands for the fields in their order, if the format allows that
      match levels, c.format.rows with
      | inner + 1, .exact => readRow false inner r.fields r.start { s with rest }
      | inner + 1, .loose => readRow true inner r.fields r.start { s with rest }
      | _, _ => .error .malformed
    -- no field has been read, which is enough for a record that needs none
    | event :: rest =>
      if c.standsEmpty event then .ok (r.start, { s with rest }) else .error .malformed
    | [] => .error .malformed

/-- A record. -/
def Context.record (c : Context σ) (r : RecordReader σ δ α) (levels : Nat) : Reader σ α := fun s =>
  do
    let (draft, s) ← c.draft r levels s
    match r.finish draft with
    | some value => .ok (value, s)
    | none => .error .malformed

/-! ## Whole documents -/

/-- A value that makes up a whole document. A fault behind the value counts as well. -/
def Context.run (c : Context σ) (read : Nat → Reader σ α) : Except Fault α := do
  let (value, _) ← read c.format.levels ⟨c.source.events, 0⟩
  -- the events may end where a fault is, so a value alone is not enough
  if c.source.faulty then .error .malformed else .ok value

end ModelGraph.Document
