import ModelGraph.Text.Digits
import ModelGraph.Yaml.Char

/-!
# Scalars of YAML

Reading the text of a scalar in each of its styles, from the characters behind its indicator.

- `single`, `double`: quoted scalars.
- `plain`: scalars without quotes, which end where an indicator could stand.
- `block`: literal and folded scalars.

Inside a scalar that runs over several lines, white space around a line break is dropped, one
break is read as a space, and the breaks behind it stay. Such pending white space is a `Gap`.
-/

namespace ModelGraph.Yaml

/-! ## Pending white space -/

/-- White space inside a scalar that is not yet known to belong to it: blanks on one line, or, once
a line has ended, the first break and those behind it. It belongs to the scalar if more of its text
follows, and is dropped if the scalar ends. -/
structure Gap where
  blanks : List Char
  broken : Bool
  first : List Char
  more : List Char

/-- No white space. -/
def Gap.none : Gap := ⟨[], false, [], []⟩

/-- There is white space. -/
def Gap.isOpen (g : Gap) : Bool := g.broken || !g.blanks.isEmpty

/-- One more blank; blanks around a break do not count. -/
def Gap.addBlank (g : Gap) (c : Char) : Gap :=
  if g.broken then g else { g with blanks := g.blanks ++ [c] }

/-- One more line break. -/
def Gap.addBreak (g : Gap) (lineBreak : List Char) : Gap :=
  -- blanks in front of the first break are dropped
  if g.broken then { g with more := g.more ++ lineBreak } else ⟨[], true, lineBreak, []⟩

/-- The text white space stands for once more text follows. -/
def Gap.text (g : Gap) : List Char :=
  if g.broken then
    -- a single line feed is folded, and any other break is kept
    if g.first = ['\n'] then (if g.more.isEmpty then [' '] else g.more) else g.first ++ g.more
  else g.blanks

/-! ## Quoted scalars -/

/-- Text put in front of what was read behind it, if anything was. -/
def before {α : Type} (text : List Char) : Option (List Char × α) → Option (List Char × α) :=
  Option.map fun (s, rest) => (text ++ s, rest)

/-- A scalar in single quotes, from behind the opening quote. Two quotes stand for one. -/
def single : Nat → Gap → List Char → Option (List Char × List Char)
  | _, _, [] => none
  | _, gap, '\r' :: '\n' :: rest => single 0 (gap.addBreak ['\n']) rest
  | column, gap, '\'' :: '\'' :: rest =>
    before (gap.text ++ ['\'']) (single (column + 2) Gap.none rest)
  | column, gap, c :: rest =>
    if isBlank c then single (column + 1) (gap.addBlank c) rest
    else if isBreak c then single 0 (gap.addBreak (readBreak c)) rest
    -- a document may not end inside quotes
    else if column = 0 && isDocumentMark (c :: rest) then none
    else if c = '\'' then some (gap.text, rest)
    else before (gap.text ++ [c]) (single (column + 1) Gap.none rest)

/-- The character of an escape of one letter. -/
def simpleEscape? : Char → Option Char
  | '0' => some '\x00'
  | 'a' => some '\x07'
  | 'b' => some '\x08'
  | 't' => some '\t'
  | '\t' => some '\t'
  | 'n' => some '\n'
  | 'v' => some '\x0b'
  | 'f' => some '\x0c'
  | 'r' => some '\r'
  | 'e' => some '\x1b'
  | ' ' => some ' '
  | '"' => some '"'
  | '/' => some '/'
  | '\\' => some '\\'
  | 'N' => some '\u0085'
  | '_' => some '\u00a0'
  | 'L' => some '\u2028'
  | 'P' => some '\u2029'
  | _ => none

/-- The character of an escape with hexadecimal digits. -/
def codeEscape? (digits : List Char) : Option Char :=
  (Text.readNatural? 16 digits).bind fun n =>
    if (0xD800 ≤ n ∧ n ≤ 0xDFFF) ∨ 0x10FFFF < n then none else some (Char.ofNat n)

/-- A scalar in double quotes, from behind the opening quote. A backslash at the end of a line
joins it to the next one. -/
def double : Nat → Gap → List Char → Option (List Char × List Char)
  | _, _, [] => none
  | _, gap, '\r' :: '\n' :: rest => double 0 (gap.addBreak ['\n']) rest
  -- a break behind a backslash is dropped, with the blanks at the beginning of the next line
  | _, gap, '\\' :: '\r' :: '\n' :: rest => before gap.text (double 0 ⟨[], true, [], []⟩ rest)
  | column, gap, '\\' :: 'x' :: a :: b :: rest =>
    match codeEscape? [a, b] with
    | some c => before (gap.text ++ [c]) (double (column + 4) Gap.none rest)
    | none => none
  | column, gap, '\\' :: 'u' :: a :: b :: c :: d :: rest =>
    match codeEscape? [a, b, c, d] with
    | some c => before (gap.text ++ [c]) (double (column + 6) Gap.none rest)
    | none => none
  | column, gap, '\\' :: 'U' :: a :: b :: c :: d :: e :: f :: g :: h :: rest =>
    match codeEscape? [a, b, c, d, e, f, g, h] with
    | some c => before (gap.text ++ [c]) (double (column + 10) Gap.none rest)
    | none => none
  | column, gap, '\\' :: e :: rest =>
    if isBreak e then before gap.text (double 0 ⟨[], true, [], []⟩ rest)
    else
      match simpleEscape? e with
      | some c => before (gap.text ++ [c]) (double (column + 2) Gap.none rest)
      | none => none
  | column, gap, c :: rest =>
    if isBlank c then double (column + 1) (gap.addBlank c) rest
    else if isBreak c then double 0 (gap.addBreak (readBreak c)) rest
    else if column = 0 && isDocumentMark (c :: rest) then none
    else if c = '"' then some (gap.text, rest)
    -- an escape that has been cut off by the end of the text
    else if c = '\\' then none
    else before (gap.text ++ [c]) (double (column + 1) Gap.none rest)

/-! ## Plain scalars -/

/-- A character that ends a plain scalar inside a flow collection. -/
def isFlowIndicator (c : Char) : Bool :=
  c == ',' || c == '[' || c == ']' || c == '\x7b' || c == '\x7d'

/-- A colon in front of such a character inside a flow collection is refused. So is one in front of
a question mark. -/
def isColonFault (rest : List Char) : Bool :=
  match rest with
  | c :: _ => isFlowIndicator c || c == '?'
  | [] => false

/-- A plain scalar: its text, whether a line break was read behind it, and the rest. It has to
stay right of the `indent`, and a tab must not take part in the indentation. -/
def plain (inFlow : Bool) (indent : Nat) :
    Nat → Gap → List Char → Option (List Char × Bool × List Char)
  | _, gap, [] => some ([], gap.broken, [])
  | _, gap, '\r' :: '\n' :: rest => plain inFlow indent 0 (gap.addBreak ['\n']) rest
  | column, gap, c :: rest =>
    if isBlank c then
      -- a tab at the beginning of a line would have to be counted as indentation
      if gap.broken && column < indent && c == '\t' then none
      else plain inFlow indent (column + 1) (gap.addBlank c) rest
    else if isBreak c then plain inFlow indent 0 (gap.addBreak (readBreak c)) rest
    -- behind white space the scalar ends left of its block, at a document mark and at a comment
    else if gap.isOpen &&
        ((!inFlow && column < indent) || (column == 0 && isDocumentMark (c :: rest)) ||
          c == '#') then
      some ([], gap.broken, c :: rest)
    else if inFlow && c == ':' && isColonFault rest then none
    -- a colon ends it where a value could follow, and inside brackets every indicator of them does
    else if (c == ':' && endsWord rest) || (inFlow && isFlowIndicator c) then
      some ([], gap.broken, c :: rest)
    else
      (plain inFlow indent (column + 1) Gap.none rest).map fun (s, after) =>
        (gap.text ++ c :: s, after)

/-! ## Block scalars -/

/-- What becomes of the line breaks at the end of a block scalar. -/
inductive Chomping where
  | strip
  | clip
  | keep
  deriving DecidableEq, Repr

/-- The header of a block scalar: chomping and the additional indentation, in either order, with
zero for none given. -/
def blockHeader? : List Char → Option (Chomping × Nat × List Char)
  | c :: rest =>
    let chomping? (c : Char) : Option Chomping :=
      if c = '+' then some .keep else if c = '-' then some .strip else none
    match chomping? c with
    | some chomping =>
      match rest with
      | d :: rest' =>
        -- an indentation of zero cannot be asked for
        if d = '0' then none
        else if Text.isDigit d then some (chomping, d.toNat - '0'.toNat, rest')
        else some (chomping, 0, rest)
      | [] => some (chomping, 0, [])
    | none =>
      if c = '0' then none
      else if Text.isDigit c then
        match rest with
        | d :: rest' =>
          match chomping? d with
          | some chomping => some (chomping, c.toNat - '0'.toNat, rest')
          | none => some (.clip, c.toNat - '0'.toNat, rest)
        | [] => some (.clip, c.toNat - '0'.toNat, [])
      else some (.clip, 0, c :: rest)
  | [] => some (.clip, 0, [])

/-- The rest of a line that may hold blanks and a comment, from behind its line break. -/
def restOfLine? (s : List Char) : Option (List Char) :=
  let s := s.dropWhile isBlank
  let s := match s with
    | '#' :: rest => rest.dropWhile (!isBreak ·)
    | _ => s
  if endsLine s then some (takeBreak s).2 else none

/-- The empty lines in front of a line of a block scalar: their breaks, the greatest column
reached, the column of the rest, and the rest. With an indentation of zero all spaces are passed
over, for it is not yet known. -/
def blockGap? (indent : Nat) :
    Nat → Nat → List Char → Option (List Char × Nat × Nat × List Char)
  | column, deepest, [] => some ([], max deepest column, column, [])
  | _, deepest, '\r' :: '\n' :: rest =>
    (blockGap? indent 0 deepest rest).map fun (breaks, after) => ('\n' :: breaks, after)
  | column, deepest, c :: rest =>
    -- blanks right of the indentation are content, so an empty line ends there
    let inIndent := indent == 0 || column < indent
    if inIndent && c == ' ' then blockGap? indent (column + 1) (max deepest (column + 1)) rest
    else if inIndent && c == '\t' then none
    else if isBreak c then
      (blockGap? indent 0 deepest rest).map fun (breaks, after) => (readBreak c ++ breaks, after)
    else some ([], max deepest column, column, c :: rest)

/-- The lines of a block scalar. `pending` is the break at the end of the line before and
`afterBlank` says whether that line began with a blank; lines that do so are not folded. Answers
the text, the last break, the breaks of the empty lines at the end, and the rest. -/
def blockLines? (literal : Bool) (indent : Nat) :
    Nat → Bool → List Char → List Char → Nat → List Char →
      Option (List Char × List Char × List Char × List Char)
  | 0, _, pending, empties, _, s => some ([], pending, empties, s)
  | fuel + 1, afterBlank, pending, empties, column, s =>
    -- a line that stands elsewhere is behind the scalar
    if column ≠ indent ∨ s.isEmpty then some ([], pending, empties, s)
    else
      let startsBlank := match s with
        | c :: _ => isBlank c
        | [] => false
      -- only a break between two lines that both begin with content is folded
      let joined :=
        if !literal && pending == ['\n'] && !afterBlank && !startsBlank then
          (if empties.isEmpty then [' '] else empties)
        else pending ++ empties
      let line := s.takeWhile (!isBreak ·)
      let (lineBreak, s) := takeBreak (s.dropWhile (!isBreak ·))
      match blockGap? indent 0 0 s with
      | none => none
      | some (empties, _, column, s) =>
        (blockLines? literal indent fuel startsBlank lineBreak empties column s).map
          fun (text, after) => (joined ++ line ++ text, after)

/-- A block scalar from behind its indicator. Its lines stand at least at the column `least`, which
is one more than the indentation around it. -/
def block? (literal : Bool) (least : Nat) (s : List Char) : Option (List Char × List Char) := do
  let (chomping, increment, afterHeader) ← blockHeader? s
  let lines ← restOfLine? afterHeader
  -- a width is counted from the indentation around the scalar
  let given := if increment = 0 then 0 else (least - 1) + increment
  let (empties, deepest, column, s) ← blockGap? given 0 0 lines
  -- with no width given the first line with content decides, or a longer blank one before it
  let indent := if increment = 0 then max deepest (max least 1) else given
  let (text, lastBreak, empties, rest) ←
    blockLines? literal indent (s.length + 1) false [] empties column s
  -- clipping keeps one break at the end, and keeping all of them
  let text := text ++ (if chomping = .strip then [] else lastBreak)
  some (text ++ (if chomping = .keep then empties else []), rest)

end ModelGraph.Yaml
