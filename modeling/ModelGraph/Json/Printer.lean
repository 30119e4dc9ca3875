import ModelGraph.Tree.Basic

/-!
# Writing JSON

A tree as JSON text, either with one element per line and two spaces for each level, or without
any white space. Infinite and missing numbers become `null`.
-/

namespace ModelGraph.Json

/-! ## Leaves -/

/-- A character as it stands inside quotes. -/
def escaped (c : Char) : List Char :=
  if c = '"' then ['\\', '"']
  else if c = '\\' then ['\\', '\\']
  else if c = '\x08' then ['\\', 'b']
  else if c = '\x0c' then ['\\', 'f']
  else if c = '\n' then ['\\', 'n']
  else if c = '\r' then ['\\', 'r']
  else if c = '\t' then ['\\', 't']
  else if c.toNat < 0x20 then '\\' :: 'u' :: Text.lowerHex 4 c.toNat
  else [c]

/-- A text in quotes. -/
def stringText (s : List Char) : List Char := '"' :: s.flatMap escaped ++ ['"']

/-- Numbers are written so that they stay floating point numbers: with a point or an exponent. -/
def floatLayout : Binary64.Layout where
  bounds := some (-5, 16)
  wholePoint := true
  plusSign := true
  tie := .toEven
  missing := ['n', 'u', 'l', 'l']
  infinity := ['n', 'u', 'l', 'l']

/-- A leaf. -/
def leafText : Scalar → List Char
  | .text value => stringText value.toList
  | .float (.infinite _) => ['n', 'u', 'l', 'l']
  | .float value => floatLayout.text value
  | other => other.toChars

/-! ## One element per line -/

/-- A new line with its indentation. -/
def newLine (indent : Nat) : List Char := '\n' :: List.replicate indent ' '

mutual

/-- A tree with one element per line. -/
def prettyText (indent : Nat) : Tree → List Char
  | .scalar value => leafText value
  | .map ⟨[]⟩ => ['\x7b', '\x7d']
  | .map ⟨entry :: rest⟩ =>
    '\x7b' :: prettyEntries (indent + 2) (entry :: rest) ++ newLine indent ++ ['\x7d']
  | .seq [] => ['[', ']']
  | .seq (item :: rest) =>
    '[' :: prettyItems (indent + 2) (item :: rest) ++ newLine indent ++ [']']

/-- Entries, each on a line of its own. -/
def prettyEntries (indent : Nat) : List (String × Tree) → List Char
  | [] => []
  | (key, value) :: rest =>
    newLine indent ++ stringText key.toList ++ ':' :: ' ' :: prettyText indent value ++
      (if rest.isEmpty then [] else [',']) ++ prettyEntries indent rest

/-- Elements, each on a line of its own. -/
def prettyItems (indent : Nat) : List Tree → List Char
  | [] => []
  | item :: rest =>
    newLine indent ++ prettyText indent item ++ (if rest.isEmpty then [] else [',']) ++
      prettyItems indent rest

end

/-- A tree as a JSON text with one element per line. -/
def render (t : Tree) : String := String.ofList (prettyText 0 t)

/-! ## No white space -/

mutual

/-- A tree without white space. -/
def compactText : Tree → List Char
  | .scalar value => leafText value
  | .map ⟨entries⟩ => '\x7b' :: compactEntries entries ++ ['\x7d']
  | .seq items => '[' :: compactItems items ++ [']']

/-- Entries with commas between them. -/
def compactEntries : List (String × Tree) → List Char
  | [] => []
  | (key, value) :: rest =>
    stringText key.toList ++ ':' :: compactText value ++ (if rest.isEmpty then [] else [',']) ++
      compactEntries rest

/-- Elements with commas between them. -/
def compactItems : List Tree → List Char
  | [] => []
  | item :: rest =>
    compactText item ++ (if rest.isEmpty then [] else [',']) ++ compactItems rest

end

/-- A tree as a JSON text without white space. -/
def renderCompact (t : Tree) : String := String.ofList (compactText t)

end ModelGraph.Json
