import ModelGraph.Toml.Value

/-!
# TOML statements

A TOML text as a list of statements: values set by keys, and the headers of tables. What they make
together is a table; each statement may contradict those before it.

- `statements?`: the statements of a text.
- `Draft.ofStatements?`: the table they make.
-/

namespace ModelGraph.Toml

/-- A statement. `element` is the header of one more table under a common name. -/
inductive Statement where
  | assign (path : List String) (name : String) (value : Item)
  | header (path : List String) (name : String)
  | element (path : List String) (name : String)

/-! ## Reading -/

/-- The statement at the front of a text, with what is left behind its line. -/
def statement? (s : List Char) : Option (Statement × List Char) :=
  match s with
  | '[' :: '[' :: rest => do
    let ((path, name), rest) ← key? rest
    match rest with
    | ']' :: ']' :: rest => (endLine? rest).map fun rest => (.element path name, rest)
    | _ => none
  | '[' :: rest => do
    let ((path, name), rest) ← key? rest
    match rest with
    | ']' :: rest => (endLine? rest).map fun rest => (.header path name, rest)
    | _ => none
  | s => do
    let ((path, name), rest) ← key? s
    match rest with
    | '=' :: rest =>
      let (value, rest) ← value? (depthLimit - 1) (skipBlanks rest)
      (endLine? rest).map fun rest => (.assign path name value, rest)
    | _ => none

/-- The statements of a text whose lines end with a line feed alone. -/
def statementsFrom? : Nat → List Char → Option (List Statement)
  | fuel, s =>
    match skipLines false s, fuel with
    | [], _ => some []
    | _, 0 => none
    | s, fuel + 1 => do
      let (first, rest) ← statement? s
      let others ← statementsFrom? fuel rest
      some (first :: others)

/-- The statements of a text. A mark of the byte order may stand in front of it. -/
def statements? (s : List Char) : Option (List Statement) :=
  let s :=
    match s with
    | '\ufeff' :: rest => rest
    | s => s
  statementsFrom? (s.length + 1) (unifyLines s)

/-! ## The table of a text -/

/-- What statements have made: the outermost table, and the path of the last header. -/
structure Draft where
  root : Fields
  current : List String

/-- What one more statement makes, unless it contradicts the earlier ones. -/
def Draft.extend? (d : Draft) : Statement → Option Draft
  -- values belong to the table of the last header
  | .assign path name value =>
    (d.root.underHeader? d.current fun _ fields => fields.assign? path name value).map fun root =>
      { d with root }
  | .header path name => (d.root.define? path name).map fun root => ⟨root, path ++ [name]⟩
  | .element path name => (d.root.append? path name).map fun root => ⟨root, path ++ [name]⟩

/-- The table that statements make. -/
def Draft.ofStatements? (statements : List Statement) : Option Fields :=
  (statements.foldlM Draft.extend? ⟨.empty, []⟩).map Draft.root

end ModelGraph.Toml
