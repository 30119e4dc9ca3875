import ModelGraph.Toml.Quoted
import ModelGraph.Toml.Table

/-!
# TOML keys and values

Keys with their dots, and the values that stand behind keys: texts, literals, arrays and tables
between braces. An array may go over several lines and end with a comma, a table between braces may
not. Keys have fewer parts, and arrays and tables fewer levels, than `depthLimit`.
-/

namespace ModelGraph.Toml

/-- The number of levels that is too deep. -/
def depthLimit : Nat := 80

/-! ## Keys -/

/-- One part of a key. -/
def keyPart? (s : List Char) : Option (String × List Char) :=
  match s.takeWhile isBare with
  | [] => line? s
  | bare => some (String.ofList bare, s.dropWhile isBare)

/-- The parts of a key with blanks around them. -/
def keyParts? : Nat → List Char → Option (List String × List Char)
  | 0, _ => none
  | fuel + 1, s => do
    let (first, s) ← keyPart? (skipBlanks s)
    match skipBlanks s with
    | '.' :: rest =>
      let (others, rest) ← keyParts? fuel rest
      some (first :: others, rest)
    | rest => some ([first], rest)

/-- A key: the way to a table, and the name in it. -/
def key? (s : List Char) : Option ((List String × String) × List Char) := do
  let (parts, rest) ← keyParts? (s.length + 1) s
  if parts.length < depthLimit then some ((parts.dropLast, ← parts.getLast?), rest) else none

/-! ## Values -/

/-- The elements of an array behind its opening bracket, given a reader of values. -/
def elements? (value? : List Char → Option (Item × List Char)) :
    Nat → List Char → Option (List Item × List Char)
  | 0, _ => none
  | fuel + 1, s =>
    match skipLines false s with
    | ']' :: rest => some ([], rest)
    | s => do
      let (first, s) ← value? s
      match skipLines false s with
      -- the bracket may close behind a comma as well
      | ',' :: rest =>
        let (others, rest) ← elements? value? fuel rest
        some (first :: others, rest)
      | ']' :: rest => some ([first], rest)
      | _ => none

/-- The entries of a table between braces, behind the opening brace or a comma. -/
def entries? (value? : List Char → Option (Item × List Char)) :
    Nat → Fields → List Char → Option (Fields × List Char)
  | 0, _, _ => none
  | fuel + 1, fields, s => do
    let ((path, name), s) ← key? s
    match s with
    | '=' :: s =>
      let (value, s) ← value? (skipBlanks s)
      let fields ← fields.assign? path name value
      match skipBlanks s with
      | ',' :: rest => entries? value? fuel fields rest
      | '\x7d' :: rest => some (fields, rest)
      | _ => none
    | _ => none

/-- A table behind its opening brace. -/
def braces? (value? : List Char → Option (Item × List Char)) (s : List Char) :
    Option (Fields × List Char) :=
  match skipBlanks s with
  | '\x7d' :: rest => some (.empty, rest)
  | _ => entries? value? (s.length + 1) .empty s

/-- The value at the front of a text. The number of levels bounds how many arrays and tables may
still be opened. -/
def value? : Nat → List Char → Option (Item × List Char)
  | levels, s =>
    match s, levels with
    | '[' :: rest, inner + 1 =>
      (elements? (value? inner) (rest.length + 1) rest).map fun (items, rest) =>
        (.array items, rest)
    | '\x7b' :: rest, inner + 1 =>
      (braces? (value? inner) rest).map fun (fields, rest) => (.table .inline fields, rest)
    | '"' :: _, _ => (text? s).map fun (text, rest) => (.leaf (.text text), rest)
    | '\'' :: _, _ => (text? s).map fun (text, rest) => (.leaf (.text text), rest)
    | _, _ => (leaf? s).map fun (leaf, rest) => (.leaf leaf, rest)

end ModelGraph.Toml
