/-!
# Characters of YAML

The classes of characters that the syntax of YAML 1.1 distinguishes, and marks: places in a text,
given by the number of characters before them, their line and their column.
-/

namespace ModelGraph.Yaml

/-! ## Classes -/

/-- A line break. -/
def isBreak (c : Char) : Bool :=
  c == '\n' || c == '\r' || c == '\u0085' || c == '\u2028' || c == '\u2029'

/-- A space or a tab. -/
def isBlank (c : Char) : Bool :=
  c == ' ' || c == '\t'

/-- A letter from A to Z, a digit, a hyphen or an underscore: the characters of anchors and tag
handles. -/
def isWord (c : Char) : Bool :=
  ('0' ≤ c && c ≤ '9') || ('A' ≤ c && c ≤ 'Z') || ('a' ≤ c && c ≤ 'z') || c == '_' || c == '-'

/-- A character that a text may contain at all. -/
def isAllowed (c : Char) : Bool :=
  let n := c.toNat
  n == 0x09 || n == 0x0A || n == 0x0D || (0x20 ≤ n && n ≤ 0x7E) || n == 0x85 ||
    (0xA0 ≤ n && n ≤ 0xD7FF) || (0xE000 ≤ n && n ≤ 0xFFFD) || 0x10000 ≤ n

/-- A mark of byte order, which may begin a line. -/
def byteOrderMark : Char := '\ufeff'

/-- What follows is white space or the end of the text. -/
def endsWord : List Char → Bool
  | [] => true
  | c :: _ => isBlank c || isBreak c

/-- What follows is a line break or the end of the text. -/
def endsLine : List Char → Bool
  | [] => true
  | c :: _ => isBreak c

/-- A line break as it is read: only the separators of lines and paragraphs keep their form. -/
def readBreak (c : Char) : List Char :=
  if c = '\u2028' ∨ c = '\u2029' then [c] else ['\n']

/-- The line break at the front as it is read, and the rest. A carriage return and a line feed are
one break. -/
def takeBreak : List Char → List Char × List Char
  | '\r' :: '\n' :: rest => (['\n'], rest)
  | c :: rest => if isBreak c then (readBreak c, rest) else ([], c :: rest)
  | [] => ([], [])

/-- A line of three hyphens or three dots begins or ends a document. -/
def isDocumentMark : List Char → Bool
  | '-' :: '-' :: '-' :: rest => endsWord rest
  | '.' :: '.' :: '.' :: rest => endsWord rest
  | _ => false

/-! ## Marks -/

/-- A place in a text. -/
structure Mark where
  index : Nat
  line : Nat
  column : Nat
  deriving DecidableEq, Repr

/-- The beginning of a text. -/
def Mark.start : Mark := ⟨0, 0, 0⟩

/-- The place behind some characters. -/
def Mark.over (m : Mark) : List Char → Mark
  | [] => m
  | '\r' :: '\n' :: rest => Mark.over ⟨m.index + 2, m.line + 1, 0⟩ rest
  | c :: rest =>
    if isBreak c then Mark.over ⟨m.index + 1, m.line + 1, 0⟩ rest
    else Mark.over ⟨m.index + 1, m.line, m.column + 1⟩ rest

/-- The characters of a text in front of a rest of it. -/
def consumed (s rest : List Char) : List Char :=
  s.take (s.length - rest.length)

end ModelGraph.Yaml
