import ModelGraph.OrderedMap
import ModelGraph.Binary64.Text

/-!
# Configuration trees

The dynamically shaped value of node data, port settings and embedded documents: an ordered map, a
sequence or a scalar.

- `Scalar.toText`: the everyday text of a scalar, which is also its text as a map key.
- `Tree.same`: equality of trees with floating point numbers compared as numbers.
- `Tree.field?`, `Tree.element?`, `Tree.text?` and their like: looking into a tree.
-/

namespace ModelGraph

/-! ## Scalars -/

/-- A leaf. `wide` holds the integers above the signed 64-bit range. -/
inductive Scalar where
  | text (value : String)
  | int (value : Int64)
  | wide (value : UInt64)
  | float (value : Binary64)
  | bool (value : Bool)
  deriving DecidableEq, Repr

namespace Scalar

/-- The leaf of an unsigned number: a signed one where it fits. -/
def ofUnsigned (value : UInt64) : Scalar :=
  if value.toNat < Nat.pow 2 63 then int (Int64.ofNat value.toNat) else wide value

/-- The everyday text of a leaf, as characters. -/
def toChars : Scalar → List Char
  | text value => value.toList
  | int value => Text.decimalInt value.toInt
  | wide value => Text.decimal value.toNat
  | float value => value.plainText
  | bool value => if value then "true".toList else "false".toList

/-- The everyday text of a leaf. -/
def toText : Scalar → String
  | text value => value
  | other => String.ofList other.toChars

/-- Equality of leaves, with floating point numbers compared as numbers. -/
def same : Scalar → Scalar → Bool
  | float x, float y => x.same y
  | x, y => x == y

end Scalar

/-! ## Trees -/

/-- An ordered map, a sequence or a leaf. -/
inductive Tree where
  | map (fields : OrderedMap Tree)
  | seq (items : List Tree)
  | scalar (value : Scalar)
  deriving Repr

namespace Tree

/-- The map without entries. -/
def emptyMap : Tree := map OrderedMap.empty

instance : Inhabited Tree := ⟨emptyMap⟩

/-- A text leaf. -/
def text (value : String) : Tree := scalar (.text value)

/-- A floating point leaf. -/
def float (value : Binary64) : Tree := scalar (.float value)

/-- A truth value leaf. -/
def bool (value : Bool) : Tree := scalar (.bool value)

/-- A map built from entries; a repeated key has its last value at its first place. -/
def ofEntries (entries : List (String × Tree)) : Tree := map (OrderedMap.ofList entries)

/-- The entries for a field that may be absent: one, or none. -/
def optionalField {α : Type} (name : String) (value : α → Tree) : Option α → List (String × Tree)
  | some a => [(name, value a)]
  | none => []

/-! ## Shape -/

/-- A map or a sequence without children. A leaf is never empty, even when blank. -/
def isEmpty : Tree → Bool
  | map fields => fields.isEmpty
  | seq items => items.isEmpty
  | scalar _ => false

/-- A leaf. -/
def isScalar : Tree → Bool
  | scalar _ => true
  | _ => false

/-- The entries of a map. -/
def map? : Tree → Option (OrderedMap Tree)
  | map fields => some fields
  | _ => none

/-- The elements of a sequence. -/
def seq? : Tree → Option (List Tree)
  | seq items => some items
  | _ => none

/-- The value of a leaf. -/
def scalar? : Tree → Option Scalar
  | scalar value => some value
  | _ => none

/-- The entries of a map, none for any other tree. -/
def fields (t : Tree) : OrderedMap Tree := t.map?.getD OrderedMap.empty

/-! ## Values of leaves -/

/-- The value of a text leaf. -/
def string? : Tree → Option String
  | scalar (.text value) => some value
  | _ => none

/-- The value of a truth value leaf. -/
def bool? : Tree → Option Bool
  | scalar (.bool value) => some value
  | _ => none

/-- The value of a number, rounded to a floating point number. -/
def float? : Tree → Option Binary64
  | scalar (.float value) => some value
  | scalar (.int value) => some (Binary64.ofInt value.toInt)
  | scalar (.wide value) => some (Binary64.ofNat value.toNat)
  | _ => none

/-- The everyday text of any leaf. -/
def text? (t : Tree) : Option String := t.scalar?.map Scalar.toText

/-! ## Children -/

/-- The value of a key of a map. -/
def field? (t : Tree) (key : String) : Option Tree := t.map?.bind (·.get? key)

/-- The map has the key. -/
def hasField (t : Tree) (key : String) : Bool := (t.field? key).isSome

/-- The element of a sequence at a position. -/
def element? (t : Tree) (position : Nat) : Option Tree := t.seq?.bind (·[position]?)

/-! ## Equality -/

mutual
/-- Whether two trees are the same value. -/
def decEq : (s t : Tree) → Decidable (s = t)
  | map ⟨xs⟩, map ⟨ys⟩ =>
    match decEqEntries xs ys with
    | isTrue h => isTrue (by rw [h])
    | isFalse h => isFalse fun e => h (by cases e; rfl)
  | seq xs, seq ys =>
    match decEqItems xs ys with
    | isTrue h => isTrue (by rw [h])
    | isFalse h => isFalse fun e => h (by cases e; rfl)
  | scalar x, scalar y =>
    if h : x = y then isTrue (by rw [h]) else isFalse fun e => h (by cases e; rfl)
  -- trees of different kinds are different
  | map _, seq _ => isFalse nofun
  | map _, scalar _ => isFalse nofun
  | seq _, map _ => isFalse nofun
  | seq _, scalar _ => isFalse nofun
  | scalar _, map _ => isFalse nofun
  | scalar _, seq _ => isFalse nofun
/-- Whether two lists of entries are the same. -/
def decEqEntries : (xs ys : List (String × Tree)) → Decidable (xs = ys)
  | [], [] => isTrue rfl
  | [], _ :: _ => isFalse nofun
  | _ :: _, [] => isFalse nofun
  | (k, x) :: xs, (l, y) :: ys =>
    if hk : k = l then
      match decEq x y, decEqEntries xs ys with
      | isTrue h, isTrue t => isTrue (by rw [hk, h, t])
      | isFalse h, _ => isFalse fun e => h (by cases e; rfl)
      | _, isFalse t => isFalse fun e => t (by cases e; rfl)
    else isFalse fun e => hk (by cases e; rfl)
/-- Whether two lists of elements are the same. -/
def decEqItems : (xs ys : List Tree) → Decidable (xs = ys)
  | [], [] => isTrue rfl
  | [], _ :: _ => isFalse nofun
  | _ :: _, [] => isFalse nofun
  | x :: xs, y :: ys =>
    match decEq x y, decEqItems xs ys with
    | isTrue h, isTrue t => isTrue (by rw [h, t])
    | isFalse h, _ => isFalse fun e => h (by cases e; rfl)
    | _, isFalse t => isFalse fun e => t (by cases e; rfl)
end

instance : DecidableEq Tree := decEq

mutual
/-- Equality of trees as values that are compared: the same entries in the same order, with leaves
compared by `Scalar.same`. -/
def same : Tree → Tree → Bool
  | map ⟨xs⟩, map ⟨ys⟩ => sameEntries xs ys
  | seq xs, seq ys => sameItems xs ys
  | scalar x, scalar y => x.same y
  | _, _ => false
/-- Comparison of lists of entries. -/
def sameEntries : List (String × Tree) → List (String × Tree) → Bool
  | [], [] => true
  | (k, x) :: xs, (l, y) :: ys => k == l && same x y && sameEntries xs ys
  | _, _ => false
/-- Comparison of lists of elements. -/
def sameItems : List Tree → List Tree → Bool
  | [], [] => true
  | x :: xs, y :: ys => same x y && sameItems xs ys
  | _, _ => false
end

end Tree
end ModelGraph
