import ModelGraph.Tree.Basic
import ModelGraph.Yaml.Style

/-!
# Writing YAML

The block form of a tree: two spaces for each level, sequences inside maps not indented, empty
containers as `[]` and as a pair of braces, lines never folded. A key that has several lines or is
longer than 128 bytes is written behind a question mark.

- `scalarText`: a text in its style.
- `render`: a tree.
-/

namespace ModelGraph.Yaml

/-! ## Scalars -/

/-- Spaces of indentation. -/
def spaces (n : Nat) : List Char := List.replicate n ' '

/-- The letter of a short escape inside double quotes. -/
def shortEscape? (c : Char) : Option Char :=
  if c = '\x00' then some '0'
  else if c = '\x07' then some 'a'
  else if c = '\x08' then some 'b'
  else if c = '\t' then some 't'
  else if c = '\n' then some 'n'
  else if c = '\x0b' then some 'v'
  else if c = '\x0c' then some 'f'
  else if c = '\r' then some 'r'
  else if c = '\x1b' then some 'e'
  else if c = '"' then some '"'
  else if c = '\\' then some '\\'
  else if c = '\u0085' then some 'N'
  else if c = '\u2028' then some 'L'
  else if c = '\u2029' then some 'P'
  else none

/-- A character as it stands inside double quotes. Every character that cannot be shown has a code
of at most four digits. -/
def escaped (c : Char) : List Char :=
  match shortEscape? c with
  | some letter => ['\\', letter]
  | none =>
    if isPrintable c then [c]
    else if c.toNat ≤ 0xFF then '\\' :: 'x' :: Text.upperHex 2 c.toNat
    else '\\' :: 'u' :: Text.upperHex 4 c.toNat

/-- Text in double quotes. -/
def doubleText (s : List Char) : List Char := '"' :: s.flatMap escaped ++ ['"']

/-- The inside of single quotes and the closing quote. Quotes are doubled, and a line begins with
the indentation. -/
def singleBody (indent : Nat) : Bool → List Char → List Char
  | afterBreak, [] => (if afterBreak then spaces indent else []) ++ ['\'']
  | afterBreak, c :: rest =>
    if isBreak c then c :: singleBody indent true rest
    else
      (if afterBreak then spaces indent else []) ++ (if c = '\'' then ['\'', '\''] else [c]) ++
        singleBody indent false rest

/-- The lines of a literal block. A line begins with the indentation unless it is empty. -/
def literalBody (indent : Nat) : Bool → List Char → List Char
  | _, [] => []
  | afterBreak, c :: rest =>
    if isBreak c then c :: literalBody indent true rest
    else (if afterBreak then spaces indent else []) ++ c :: literalBody indent false rest

/-- The chomping of a literal block: breaks at the end beyond the first are kept, and a missing
break is left out. -/
def chompingText (s : List Char) : List Char :=
  match s.reverse with
  | last :: others =>
    if isBreak last then
      match others with
      -- a text that is a single break has nothing that this break could end
      | [] => ['+']
      | c :: _ => if isBreak c then ['+'] else []
    else ['-']
  | [] => ['-']

/-- A literal block. The width of the indentation is given where the text begins with white
space. -/
def literalText (indent : Nat) (s : List Char) : List Char :=
  let hint := if s.head?.any fun c => isSpace c || isBreak c then ['2'] else []
  '|' :: hint ++ chompingText s ++ '\n' :: literalBody indent true s

/-- A text in its style, with an indentation for all its lines but the first. -/
def scalarText (indent : Nat) (s : List Char) : List Char :=
  match styleOf s with
  | .plain => s
  | .single => '\'' :: singleBody indent false s
  | .literal => literalText indent s
  | _ => doubleText s

/-- Numbers are written so that they stay numbers: with a point or an exponent. -/
def floatLayout : Binary64.Layout where
  bounds := some (-5, 16)
  wholePoint := true
  plusSign := false
  tie := .toEven
  missing := ['.', 'n', 'a', 'n']
  infinity := ['.', 'i', 'n', 'f']

/-- A leaf. -/
def leafText (indent : Nat) : Scalar → List Char
  | .text value => scalarText indent value.toList
  | .float value => floatLayout.text value
  | other => other.toChars

/-- The end of the line, unless the text ends with one already, as a literal block does. -/
def endLine (s : List Char) : List Char :=
  if s.getLast?.any isBreak then s else s ++ ['\n']

/-! ## Containers -/

/-- A key that stands on one line in front of its colon. -/
def isSimpleKey (key : String) : Bool :=
  !isMultiline key.toList && key.utf8ByteSize ≤ 128

mutual

/-- A node whose first line is already indented. -/
def nodeText (indent : Nat) : Tree → List Char
  | .scalar value => endLine (leafText indent value)
  | .map ⟨[]⟩ => ['\x7b', '\x7d', '\n']
  | .map ⟨entry :: rest⟩ => entriesText indent (entry :: rest)
  | .seq [] => ['[', ']', '\n']
  | .seq (item :: rest) => itemsText indent (item :: rest)

/-- The value behind a key and its colon. -/
def valueText (indent : Nat) : Tree → List Char
  | .scalar value => ' ' :: endLine (leafText (indent + 2) value)
  | .map ⟨[]⟩ => [' ', '\x7b', '\x7d', '\n']
  | .map ⟨entry :: rest⟩ => '\n' :: spaces (indent + 2) ++ entriesText (indent + 2) (entry :: rest)
  | .seq [] => [' ', '[', ']', '\n']
  -- sequences are not indented below their key, while maps are
  | .seq (item :: rest) => '\n' :: spaces indent ++ itemsText indent (item :: rest)

/-- One entry of a map. -/
def entryText (indent : Nat) : String × Tree → List Char
  | (key, value) =>
    if isSimpleKey key then
      scalarText indent key.toList ++ ':' :: valueText indent value
    else
      -- a long key stands alone behind a question mark, and its value behind a colon of its own
      '?' :: ' ' :: endLine (scalarText (indent + 2) key.toList) ++ spaces indent ++
        ':' :: ' ' :: nodeText (indent + 2) value

/-- Entries of a map, the first of them already indented. -/
def entriesText (indent : Nat) : List (String × Tree) → List Char
  | [] => []
  | [last] => entryText indent last
  | entry :: rest => entryText indent entry ++ spaces indent ++ entriesText indent rest

/-- Elements of a sequence, the first of them already indented. -/
def itemsText (indent : Nat) : List Tree → List Char
  | [] => []
  | [last] => '-' :: ' ' :: nodeText (indent + 2) last
  | item :: rest =>
      '-' :: ' ' :: nodeText (indent + 2) item ++ spaces indent ++ itemsText indent rest

end

/-- A tree as a document. A text that stands alone is indented like one inside a container. -/
def renderChars : Tree → List Char
  | .scalar value => endLine (leafText 2 value)
  | t => nodeText 0 t

/-- A tree as a YAML text. -/
def render (t : Tree) : String := String.ofList (renderChars t)

end ModelGraph.Yaml
