import ModelGraph.Tree.Basic
import ModelGraph.Text.Basic

/-!
# Trimming

Interactive editing leaves blank values behind. Trimming drops every blank leaf and then every
container that has become empty, at any depth below the root. The root itself stays what it is.
-/

namespace ModelGraph

/-- The text of the leaf is white space only. -/
def Scalar.isBlank (s : Scalar) : Bool := Text.isBlank s.toChars

namespace Tree

mutual
/-- The tree without blank leaves and empty containers below its root. -/
def trim : Tree → Tree
  | map ⟨entries⟩ => map ⟨trimEntries entries⟩
  | seq items => seq (trimItems items)
  -- a leaf at the root stays, also a blank one
  | scalar value => scalar value
/-- Trims every value, and drops the blank and the empty ones. -/
def trimEntries : List (String × Tree) → List (String × Tree)
  | [] => []
  | (key, value) :: rest =>
    match trimChild value with
    | some kept => (key, kept) :: trimEntries rest
    | none => trimEntries rest
/-- Trims every element, and drops the blank and the empty ones. -/
def trimItems : List Tree → List Tree
  | [] => []
  | item :: rest =>
    match trimChild item with
    | some kept => kept :: trimItems rest
    | none => trimItems rest
/-- A child after trimming, unless it is blank or empty. -/
def trimChild : Tree → Option Tree
  | scalar value => if value.isBlank then none else some (scalar value)
  | map ⟨entries⟩ =>
    -- emptied by trimming or empty before, which makes no difference
    match trimEntries entries with
    | [] => none
    | kept => some (map ⟨kept⟩)
  | seq items =>
    match trimItems items with
    | [] => none
    | kept => some (seq kept)
end

end Tree
end ModelGraph
