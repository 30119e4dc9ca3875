import ModelGraph.Tree.Basic
import ModelGraph.Text.Printable

/-!
# Descriptions of trees

A tree written out in full with the kinds of its parts, for messages that have to name a value
which stands where no such value may stand.
-/

namespace ModelGraph

/-- Texts with a comma and a space between them. -/
def commaSeparated : List (List Char) → List Char
  | [] => []
  | [last] => last
  | first :: rest => first ++ [',', ' '] ++ commaSeparated rest

/-- The description of a leaf. -/
def Scalar.inspect : Scalar → List Char
  | text value => "Str(".toList ++ Text.quoted value ++ [')']
  | int value => "Int(".toList ++ Text.decimalInt value.toInt ++ [')']
  | wide value => "UInt(".toList ++ Text.decimal value.toNat ++ [')']
  | float value => "Float(".toList ++ Binary64.inspectLayout.text value ++ [')']
  | bool value => "Bool(".toList ++ (Scalar.bool value).toChars ++ [')']

namespace Tree

mutual
/-- The description of a tree. -/
def inspect : Tree → List Char
  | map ⟨entries⟩ =>
    "Map(OrderedMap \x7b entries: [".toList ++ commaSeparated (inspectEntries entries) ++
      "] \x7d)".toList
  | seq items => "Seq([".toList ++ commaSeparated (inspectItems items) ++ "])".toList
  | scalar value => "Scalar(".toList ++ value.inspect ++ [')']
/-- The descriptions of entries. -/
def inspectEntries : List (String × Tree) → List (List Char)
  | [] => []
  | (key, value) :: rest =>
    (['('] ++ Text.quoted key ++ [',', ' '] ++ inspect value ++ [')']) :: inspectEntries rest
/-- The descriptions of elements. -/
def inspectItems : List Tree → List (List Char)
  | [] => []
  | item :: rest => inspect item :: inspectItems rest
end

end Tree
end ModelGraph
