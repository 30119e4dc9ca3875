import ModelGraph.Yaml.Scalar
import ModelGraph.Yaml.Tag

/-!
# Tokens of YAML

Splitting a text into tokens. Indentation becomes tokens that begin and end block collections, and
a scalar, an alias or a collection turns out to be a key only when a colon follows it on the same
line: then a `key` token is put in front of it, together with the beginning of a block mapping if
it stands further to the right than what surrounds it.

- `Lexer`: what is left of the text, the indentation, and the places where a key may begin.
- `Token.ofText`: the tokens of a text, as far as they can be used when the text has a fault.
-/

namespace ModelGraph.Yaml

/-! ## Tokens -/

/-- How a scalar is written. -/
inductive Style where
  | plain
  | single
  | double
  | literal
  | folded
  deriving DecidableEq, Repr

/-- A token. -/
inductive Token where
  | directive (value : Directive)
  | documentStart
  | documentEnd
  | blockSequenceStart
  | blockMappingStart
  | blockEnd
  | flowSequenceStart
  | flowSequenceEnd
  | flowMappingStart
  | flowMappingEnd
  | blockEntry
  | flowEntry
  | key
  | value
  | alias (name : String)
  | anchor (name : String)
  | tag (value : WrittenTag)
  | scalar (style : Style) (text : String)
  | streamEnd
  deriving DecidableEq, Repr

/-! ## State -/

/-- A place where a key may have begun: the number of tokens before it, and whether the text is
wrong if it is none. The place is kept until a colon follows or no key can end here any more. -/
structure KeyPlace where
  position : Nat
  required : Bool
  mark : Mark
  deriving DecidableEq, Repr

/-- The state of the splitting. `indents` are the columns of the open block collections, innermost
first; `place` is where a key may have begun on the present level and `outerPlaces` on the levels
of the open flow collections around it. Tokens are kept newest first. -/
structure Lexer where
  rest : List Char
  mark : Mark
  indents : List Nat
  place : Option KeyPlace
  outerPlaces : List (Option KeyPlace)
  keyAllowed : Bool
  tokens : List Token
  finished : Bool

namespace Lexer

/-- The beginning of a text. -/
def start (s : List Char) : Lexer where
  rest := s
  mark := Mark.start
  indents := []
  place := none
  outerPlaces := []
  keyAllowed := true
  tokens := []
  finished := false

/-- Inside a flow collection. -/
def inFlow (l : Lexer) : Bool := !l.outerPlaces.isEmpty

/-- The least column at which content of the present block may stand: right of the collection around
it, and anywhere outside of all collections. -/
def leastColumn (l : Lexer) : Nat :=
  match l.indents with
  | [] => 0
  | column :: _ => column + 1

/-- Goes on to a later place of the text. -/
def goTo (l : Lexer) (rest : List Char) : Lexer :=
  { l with rest, mark := l.mark.over (consumed l.rest rest) }

/-- Passes over characters that are no line breaks. -/
def skip (l : Lexer) (count : Nat) : Lexer := l.goTo (l.rest.drop count)

/-- One more token. -/
def push (l : Lexer) (t : Token) : Lexer := { l with tokens := t :: l.tokens }

/-- A token put before tokens that are there already. The position counts from the first token of
the text, while the tokens are kept newest first. -/
def pushAt (l : Lexer) (position : Nat) (t : Token) : Lexer :=
  -- the tokens behind the position, which stand at the front of the list
  let later := l.tokens.length - position
  { l with tokens := l.tokens.take later ++ t :: l.tokens.drop later }

/-! ## Places of keys -/

/-- A key must end on the line where it begins, and within 1024 characters. -/
def isStale (l : Lexer) (p : KeyPlace) : Bool :=
  p.mark.line < l.mark.line || p.mark.index + 1024 < l.mark.index

/-- A place without the key it was kept for. -/
def dropStale (l : Lexer) : Option KeyPlace → Option (Option KeyPlace)
  -- a place that is too far away can hold no key, which is a fault where one is required
  | some p => if l.isStale p then (if p.required then none else some none) else some (some p)
  | none => some none

/-- Drops the places where no key can begin any more. -/
def dropStalePlaces (l : Lexer) : Option Lexer := do
  let place ← l.dropStale l.place
  let outerPlaces ← l.outerPlaces.mapM l.dropStale
  some { l with place, outerPlaces }

/-- Gives up the place of the present level. -/
def forgetPlace (l : Lexer) : Option Lexer :=
  match l.place with
  | some p => if p.required then none else some { l with place := none }
  | none => some l

/-- Remembers that a key may begin here. It is required where a block mapping is open at this very
column. -/
def savePlace (l : Lexer) : Option Lexer :=
  if l.keyAllowed then
    -- left of this column the mapping would have ended, and right of it another one would begin
    let required := !l.inFlow && l.indents.head? == some l.mark.column
    l.forgetPlace.map fun l =>
      { l with place := some ⟨l.tokens.length, required, l.mark⟩ }
  else some l

/-! ## Indentation -/

/-- Ends the block collections that stand right of a column. -/
def closeBlocks (column : Nat) : List Nat → List Token → List Nat × List Token
  | [], ts => ([], ts)
  | indent :: rest, ts =>
    -- the innermost collection comes first, so the first that may stay ends the search
    if column < indent then closeBlocks column rest (.blockEnd :: ts) else (indent :: rest, ts)

/-- Ends the block collections that stand right of a column. -/
def unroll (l : Lexer) (column : Nat) : Lexer :=
  -- between brackets and braces the columns carry no meaning
  if l.inFlow then l
  else
    let (indents, tokens) := closeBlocks column l.indents l.tokens
    { l with indents, tokens }

/-- Ends all block collections. -/
def unrollAll (l : Lexer) : Lexer :=
  if l.inFlow then l
  else { l with indents := [], tokens := l.indents.map (fun _ => Token.blockEnd) ++ l.tokens }

/-- A column lies right of the indentation. -/
def isDeeper (l : Lexer) (column : Nat) : Bool := !l.inFlow && l.leastColumn ≤ column

/-- Begins a block collection here if this is right of the indentation. -/
def roll (l : Lexer) (t : Token) : Lexer :=
  if l.isDeeper l.mark.column then { l with indents := l.mark.column :: l.indents }.push t else l

/-- Begins a block mapping at the place of its first key. -/
def rollAt (l : Lexer) (p : KeyPlace) : Lexer :=
  if l.isDeeper p.mark.column then
    { l with indents := p.mark.column :: l.indents }.pushAt p.position .blockMappingStart
  else l

/-! ## White space -/

/-- Passes over white space, comments and line breaks. Tabs are white space only where no key may
begin, and a line may begin with a byte order mark. The length of the text is fuel enough. -/
def skipSpace : Nat → Lexer → Lexer
  | 0, l => l
  | fuel + 1, l =>
    -- a byte order mark at the beginning of a line is passed over
    let l := match l.rest with
      | c :: rest => if l.mark.column = 0 && c == byteOrderMark then l.goTo rest else l
      | [] => l
    -- where a key may begin a tab would have to count as indentation, which it cannot
    let tabs := l.inFlow || !l.keyAllowed
    let l := l.goTo (l.rest.dropWhile fun c => c == ' ' || (tabs && c == '\t'))
    -- a comment ends with its line
    let l := match l.rest with
      | '#' :: _ => l.goTo (l.rest.dropWhile (!isBreak ·))
      | _ => l
    match l.rest with
    | c :: _ =>
      if isBreak c then
        let l := l.goTo (takeBreak l.rest).2
        -- behind a break outside of brackets a key may begin
        skipSpace fuel (if l.inFlow then l else { l with keyAllowed := true })
      else l
    | [] => l

/-! ## Kinds of tokens -/

/-- The end of the text. -/
def readEnd (l : Lexer) : Option Lexer :=
  -- what is open in blocks ends with the text
  l.unrollAll.forgetPlace.map fun l =>
    { l.push .streamEnd with keyAllowed := false, finished := true }

/-- A directive, which takes up its line. -/
def readDirective (l : Lexer) : Option Lexer := do
  -- a directive belongs to the next document, so all blocks of the last one end
  let l ← l.unrollAll.forgetPlace
  let (value, rest) ← directive? (l.rest.drop 1)
  let rest ← restOfLine? rest
  some ({ l with keyAllowed := false }.goTo rest |>.push (.directive value))

/-- The mark at the beginning or the end of a document. -/
def readDocumentMark (l : Lexer) (t : Token) : Option Lexer :=
  l.unrollAll.forgetPlace.map fun l => ({ l with keyAllowed := false }.skip 3).push t

/-- The beginning of a flow collection, which may be a key. -/
def openFlow (l : Lexer) (t : Token) : Option Lexer :=
  -- the whole collection may be a key, and a key may begin inside it at once
  l.savePlace.map fun l =>
    ({ l with place := none, outerPlaces := l.place :: l.outerPlaces, keyAllowed := true }.skip
      1).push t

/-- The end of a flow collection. -/
def closeFlow (l : Lexer) (t : Token) : Option Lexer :=
  l.forgetPlace.map fun l =>
    -- the place outside counts again, at which the collection itself may be a key
    let l := match l.outerPlaces with
      | place :: outer => { l with place, outerPlaces := outer }
      | [] => l
    ({ l with keyAllowed := false }.skip 1).push t

/-- A comma between the elements of a flow collection. -/
def readFlowEntry (l : Lexer) : Option Lexer :=
  l.forgetPlace.map fun l => ({ l with keyAllowed := true }.skip 1).push .flowEntry

/-- A hyphen in front of an element of a block sequence. -/
def readBlockEntry (l : Lexer) : Option Lexer :=
  -- a hyphen cannot follow content on its line
  if !l.inFlow && !l.keyAllowed then none
  else
    (l.roll .blockSequenceStart).forgetPlace.map fun l =>
      ({ l with keyAllowed := true }.skip 1).push .blockEntry

/-- A question mark in front of a key. -/
def readKey (l : Lexer) : Option Lexer :=
  if !l.inFlow && !l.keyAllowed then none
  else
    -- an explicit key may itself be a collection, so another key may begin behind it
    (l.roll .blockMappingStart).forgetPlace.map fun l =>
      ({ l with keyAllowed := !l.inFlow }.skip 1).push .key

/-- A colon behind a key. -/
def readValue (l : Lexer) : Option Lexer :=
  match l.place with
  | some p =>
    -- what has been read since that place turns out to be a key
    let l := ({ l with place := none, keyAllowed := false }.pushAt p.position .key).rollAt p
    some ((l.skip 1).push .value)
  | none =>
    if !l.inFlow && !l.keyAllowed then none
    else
      -- the key is empty, or a question mark stands before it
      let l := l.roll .blockMappingStart
      some (({ l with keyAllowed := !l.inFlow }.skip 1).push .value)

/-- The name of an anchor or an alias, from behind its indicator. -/
def anchorName? (s : List Char) : Option (String × List Char) :=
  let name := s.takeWhile isWord
  let rest := s.dropWhile isWord
  let ends := endsWord rest || match rest with
    | c :: _ => ['?', ':', ',', ']', '\x7d', '%', '@', '\x60'].contains c
    | [] => true
  if name.isEmpty || !ends then none else some (String.ofList name, rest)

/-- Something that may be a key, read by a function of its own. -/
def readContent (l : Lexer) (read : Lexer → Option (Token × List Char)) : Option Lexer := do
  let l ← l.savePlace
  let (t, rest) ← read l
  some ({ l with keyAllowed := false }.goTo rest |>.push t)

/-- An anchor or an alias. -/
def readAnchor (l : Lexer) (token : String → Token) : Option Lexer :=
  l.readContent fun l => (anchorName? (l.rest.drop 1)).map fun (name, rest) => (token name, rest)

/-- A tag. -/
def readTag (l : Lexer) : Option Lexer :=
  l.readContent fun l => (tag? l.inFlow l.rest).map fun (tag, rest) => (.tag tag, rest)

/-- A scalar in quotes. -/
def readQuoted (l : Lexer) (style : Style)
    (quoted : Nat → Gap → List Char → Option (List Char × List Char)) : Option Lexer :=
  l.readContent fun l =>
    (quoted (l.mark.column + 1) Gap.none (l.rest.drop 1)).map fun (text, rest) =>
      (.scalar style (String.ofList text), rest)

/-- A plain scalar. A line break behind it lets a key begin. -/
def readPlain (l : Lexer) : Option Lexer := do
  let l ← l.savePlace
  -- the scalar ends left of the block around it, or where an indicator could stand
  let (text, broken, rest) ← plain l.inFlow l.leastColumn l.mark.column Gap.none l.rest
  some ({ l with keyAllowed := broken }.goTo rest |>.push (.scalar .plain (String.ofList text)))

/-- A block scalar, which is never a key. -/
def readBlock (l : Lexer) (style : Style) : Option Lexer := do
  -- it ends with a line, so nothing behind it can make it a key
  let l ← l.forgetPlace
  let (text, rest) ← block? (style == .literal) l.leastColumn (l.rest.drop 1)
  some ({ l with keyAllowed := true }.goTo rest |>.push (.scalar style (String.ofList text)))

/-- A character that begins no plain scalar. -/
def isIndicator (c : Char) : Bool :=
  ['-', '?', ':', ',', '[', ']', '\x7b', '\x7d', '#', '&', '*', '!', '|', '>', '\'', '"', '%', '@',
    '\x60'].contains c

/-- The token at the front of a text without leading white space. -/
def readToken (l : Lexer) : Option Lexer :=
  match l.rest with
  | [] => l.readEnd
  | c :: rest =>
    -- marks of directives and documents count at the beginning of a line alone
    if l.mark.column = 0 && c == '%' then l.readDirective
    else if l.mark.column = 0 && isDocumentMark l.rest then
      l.readDocumentMark (if c = '-' then .documentStart else .documentEnd)
    else if c = '[' then l.openFlow .flowSequenceStart
    else if c = '\x7b' then l.openFlow .flowMappingStart
    else if c = ']' then l.closeFlow .flowSequenceEnd
    else if c = '\x7d' then l.closeFlow .flowMappingEnd
    else if c = ',' then l.readFlowEntry
    -- these three are indicators only in front of white space, or of anything between brackets
    else if c = '-' && endsWord rest then l.readBlockEntry
    else if c = '?' && (l.inFlow || endsWord rest) then l.readKey
    else if c = ':' && (l.inFlow || endsWord rest) then l.readValue
    else if c = '*' then l.readAnchor .alias
    else if c = '&' then l.readAnchor .anchor
    else if c = '!' then l.readTag
    else if c = '|' && !l.inFlow then l.readBlock .literal
    else if c = '>' && !l.inFlow then l.readBlock .folded
    else if c = '\'' then l.readQuoted .single single
    else if c = '"' then l.readQuoted .double double
    -- a hyphen, a question mark or a colon that is joined to what follows is text
    else if !isIndicator c || (c = '-' && !(rest.head?.any isBlank)) ||
        (!l.inFlow && (c == '?' || c == ':') && !endsWord rest) then
      if isBlank c then none else l.readPlain
    else none

/-- The next token, with what has to come before it. -/
def next (l : Lexer) : Option Lexer := do
  let l ← (l.skipSpace (l.rest.length + 1)).dropStalePlaces
  -- a token left of the innermost collection ends it first
  let l ← (l.unroll l.mark.column).readToken
  l.dropStalePlaces

/-! ## Whole texts -/

/-- The number of tokens that nothing can be put in front of any more. When the text has a fault,
these are the tokens that are used, and all behind them are lost. -/
def settled (l : Lexer) : Nat :=
  -- a key token can still be put in at each of these places
  (l.place :: l.outerPlaces).foldl
    (fun n p => match p with
      | some p => min n p.position
      | none => n)
    l.tokens.length

/-- The tokens up to the end of the text or to a fault, and whether there was none. Each step takes
a character or ends the text, so its length is fuel enough. -/
def run : Nat → Lexer → List Token × Bool
  | 0, l => (l.tokens.reverse.take l.settled, false)
  | fuel + 1, l =>
    match l.next with
    | none => (l.tokens.reverse.take l.settled, false)
    | some l => if l.finished then (l.tokens.reverse, true) else run fuel l

end Lexer

/-- The tokens of a text, and whether it is free of faults. A text with a character that is not
allowed has no tokens. -/
def Token.ofText (s : List Char) : List Token × Bool :=
  if s.all isAllowed then (Lexer.start s).run (s.length + 2) else ([], false)

end ModelGraph.Yaml
