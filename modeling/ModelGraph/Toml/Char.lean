/-!
# TOML characters and lines

The classes of characters in TOML text, and what may stand between its parts: blanks, comments and
ends of lines. A line ends with a line feed; a carriage return in front of it belongs to the end of
the line and may stand nowhere else.
-/

namespace ModelGraph.Toml

/-! ## Classes -/

/-- A blank inside a line. -/
def isBlank (c : Char) : Bool :=
  c == ' ' || c == '\t'

/-- A character that may stand in a comment or a text: no control character but the tab. -/
def isPlain (c : Char) : Bool :=
  c == '\t' || (0x20 ≤ c.toNat && c.toNat != 0x7F)

/-- A character of a key without quotes. -/
def isBare (c : Char) : Bool :=
  ('A' ≤ c && c ≤ 'Z') || ('a' ≤ c && c ≤ 'z') || ('0' ≤ c && c ≤ '9') || c == '_' || c == '-'

/-- A character of a number, a date or a word. -/
def isLiteral (c : Char) : Bool :=
  isBare c || c == '+' || c == '.' || c == ':'

/-! ## Lines -/

/-- The text with a line feed alone at the end of every line. -/
def unifyLines : List Char → List Char
  | '\r' :: '\n' :: rest => '\n' :: unifyLines rest
  | c :: rest => c :: unifyLines rest
  | [] => []

/-- What is left behind blanks. -/
def skipBlanks (s : List Char) : List Char :=
  s.dropWhile isBlank

/-- What is left behind a comment, if there is one. -/
def skipComment : List Char → List Char
  | '#' :: rest => rest.dropWhile isPlain
  | s => s

/-- What is left behind the end of a line, which blanks and a comment may precede. The end of the
text ends its last line. -/
def endLine? (s : List Char) : Option (List Char) :=
  match skipComment (skipBlanks s) with
  | [] => some []
  | '\n' :: rest => some rest
  | _ => none

/-- What is left behind blanks, comments and ends of lines. `comment` says that a comment is
open. -/
def skipLines (comment : Bool) : List Char → List Char
  | [] => []
  | c :: rest =>
    if c == '\n' then skipLines false rest
    else if comment then (if isPlain c then skipLines true rest else c :: rest)
    else if isBlank c then skipLines false rest
    else if c == '#' then skipLines true rest
    else c :: rest

end ModelGraph.Toml
