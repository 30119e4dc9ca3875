import ModelGraph.Yaml.Plain
import ModelGraph.Yaml.Token

/-!
# Styles of scalars

Which style a text is written in. A text that a plain scalar would not stand for is put in single
quotes, and a text with line feeds becomes a literal block. Where the characters of a text do not
allow the style, single quotes take the place of the plain style, and double quotes with escapes
the place of any style.
-/

namespace ModelGraph.Yaml

/-! ## Characters -/

/-- A character that may be written as itself. -/
def isPrintable (c : Char) : Bool :=
  let n := c.toNat
  n == 0x0A || (0x20 ≤ n && n ≤ 0x7E) || (0xA0 ≤ n && n ≤ 0xD7FF) ||
    (0xE000 ≤ n && n ≤ 0xFFFD && n != 0xFEFF) || 0x10000 ≤ n

/-- Every place of a text: the characters before, newest first, the character there and those
behind it. -/
def placesFrom (before : List Char) : List Char → List (List Char × Char × List Char)
  | [] => []
  | c :: rest => (before, c, rest) :: placesFrom (c :: before) rest

/-- Every place of a text. -/
def places (s : List Char) : List (List Char × Char × List Char) := placesFrom [] s

/-- A character of two places in a row. -/
def hasPair (p q : Char → Bool) : List Char → Bool
  | c :: d :: rest => (p c && q d) || hasPair p q (d :: rest)
  | _ => false

/-- A character that begins no plain scalar, whatever follows. -/
def isLeadingIndicator (c : Char) : Bool :=
  ['#', ',', '[', ']', '\x7b', '\x7d', '&', '*', '!', '|', '>', '\'', '"', '%', '@',
    '\x60'].contains c

/-- A character that could be taken for an indicator where it stands in a block. -/
def isIndicatorAt : List Char × Char × List Char → Bool
  | ([], c, after) =>
    isLeadingIndicator c || ((c == '?' || c == ':' || c == '-') && endsWord after)
  | (b :: _, c, after) =>
    (c == ':' && endsWord after) || (c == '#' && (isBlank b || isBreak b))

/-- The text begins like the mark of a document. -/
def beginsLikeDocument : List Char → Bool
  | '-' :: '-' :: '-' :: _ => true
  | '.' :: '.' :: '.' :: _ => true
  | _ => false

/-! ## What the characters of a text allow -/

/-- A space. -/
def isSpace (c : Char) : Bool := c == ' '

/-- The text has more than one line. -/
def isMultiline (s : List Char) : Bool := s.any isBreak

/-- The first or the last character has a property. -/
def atEnds (p : Char → Bool) (s : List Char) : Bool := s.head?.any p || s.getLast?.any p

/-- Only double quotes can hold the text: it has a character that cannot be shown, or a space in
front of a line break. -/
def needsEscapes (s : List Char) : Bool :=
  s.any (!isPrintable ·) || hasPair isSpace isBreak s

/-- The text may be written without quotes. -/
def allowsPlain (s : List Char) : Bool :=
  !needsEscapes s && !isMultiline s && !atEnds isSpace s && !beginsLikeDocument s &&
    !(places s).any isIndicatorAt

/-- The text may be written in single quotes. -/
def allowsSingle (s : List Char) : Bool :=
  !needsEscapes s && !hasPair isBreak isSpace s

/-- The text may be written as a block. -/
def allowsBlock (s : List Char) : Bool :=
  !s.isEmpty && !needsEscapes s && !s.getLast?.any isSpace

/-! ## The choice -/

/-- The style of a text. -/
def styleOf (s : List Char) : Style :=
  if s.contains '\n' then (if allowsBlock s then .literal else .double)
  else if Plain.isText s && allowsPlain s then .plain
  else if allowsSingle s then .single
  else .double

end ModelGraph.Yaml
