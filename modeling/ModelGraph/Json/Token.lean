import ModelGraph.Text.Digits

/-!
# JSON tokens

Splitting JSON text into punctuation and leaves. A number is kept as its digits, because which
values are allowed depends on who reads it. A string with half of a surrogate pair is a token
without a text: it may be passed over, but not be read.
-/

namespace ModelGraph.Json

/-- A number as it is written. -/
structure Numeral where
  negative : Bool
  whole : List Char
  fraction : Option (List Char)
  exponent : Option (Bool × List Char)
  deriving DecidableEq, Repr

/-- A leaf of a JSON text. -/
inductive Leaf where
  | null
  | bool (value : Bool)
  | number (value : Numeral)
  | string (value : Option String)
  deriving DecidableEq, Repr

/-- A token of a JSON text. -/
inductive Token where
  | leaf (value : Leaf)
  | openArray
  | closeArray
  | openObject
  | closeObject
  | comma
  | colon
  deriving DecidableEq, Repr

/-- White space between tokens. -/
def isSpace (c : Char) : Bool :=
  c == ' ' || c == '\n' || c == '\t' || c == '\r'

/-! ## Numbers -/

/-- A run of at least one digit, and the rest. -/
def digits? (s : List Char) : Option (List Char × List Char) :=
  match s.takeWhile Text.isDigit with
  | [] => none
  | run => some (run, s.dropWhile Text.isDigit)

/-- The part before the point: a zero alone, or digits that do not begin with zero. -/
def whole? : List Char → Option (List Char × List Char)
  | '0' :: rest => some (['0'], rest)
  | s => digits? s

/-- The part after the point, if there is one. -/
def fraction? : List Char → Option (Option (List Char) × List Char)
  | '.' :: rest => (digits? rest).map fun (run, rest) => (some run, rest)
  | s => some (none, s)

/-- The exponent, if there is one, with its sign. -/
def exponent? (s : List Char) : Option (Option (Bool × List Char) × List Char) :=
  let signed : List Char → Option (Option (Bool × List Char) × List Char)
    | '-' :: rest => (digits? rest).map fun (run, rest) => (some (true, run), rest)
    | '+' :: rest => (digits? rest).map fun (run, rest) => (some (false, run), rest)
    | rest => (digits? rest).map fun (run, rest) => (some (false, run), rest)
  match s with
  | 'e' :: rest => signed rest
  | 'E' :: rest => signed rest
  | _ => some (none, s)

/-- A number without its sign. -/
def magnitude? (negative : Bool) (s : List Char) : Option (Numeral × List Char) := do
  let (whole, s) ← whole? s
  let (fraction, s) ← fraction? s
  let (exponent, s) ← exponent? s
  some (⟨negative, whole, fraction, exponent⟩, s)

/-- A number. -/
def numeral? : List Char → Option (Numeral × List Char)
  | '-' :: rest => magnitude? true rest
  | s => magnitude? false s

/-! ## Strings -/

/-- The number of four hexadecimal digits. -/
def hex4? (a b c d : Char) : Option Nat := Text.readNatural? 16 [a, b, c, d]

/-- The first half of a surrogate pair. -/
def isHighSurrogate (n : Nat) : Bool := 0xD800 ≤ n && n ≤ 0xDBFF

/-- The second half of a surrogate pair. -/
def isLowSurrogate (n : Nat) : Bool := 0xDC00 ≤ n && n ≤ 0xDFFF

/-- One piece of a string: a character or half of a surrogate pair. -/
inductive Piece where
  | char (c : Char)
  | surrogate (n : Nat)
  deriving DecidableEq, Repr

/-- The piece that an escape with four digits stands for. -/
def Piece.ofCode (n : Nat) : Piece :=
  if isHighSurrogate n || isLowSurrogate n then surrogate n else char (Char.ofNat n)

/-- The character of an escape of one letter. -/
def simpleEscape? : Char → Option Char
  | '"' => some '"'
  | '\\' => some '\\'
  | '/' => some '/'
  | 'b' => some '\x08'
  | 'f' => some '\x0c'
  | 'n' => some '\n'
  | 'r' => some '\r'
  | 't' => some '\t'
  | _ => none

/-- The pieces of a string up to its closing quote, and the rest. Control characters must be
escaped. -/
def pieces? : List Char → Option (List Piece × List Char)
  | [] => none
  | '"' :: rest => some ([], rest)
  | '\\' :: 'u' :: a :: b :: c :: d :: rest =>
    match hex4? a b c d with
    | some n => (pieces? rest).map fun (ps, rest) => (Piece.ofCode n :: ps, rest)
    | none => none
  | '\\' :: e :: rest =>
    match simpleEscape? e with
    | some c => (pieces? rest).map fun (ps, rest) => (.char c :: ps, rest)
    | none => none
  | c :: rest =>
    if c.toNat < 0x20 ∨ c = '\\' then none
    else (pieces? rest).map fun (ps, rest) => (.char c :: ps, rest)

/-- The text of pieces, in which every surrogate must have its partner. -/
def joinPieces? : List Piece → Option (List Char)
  | [] => some []
  | .char c :: rest => (joinPieces? rest).map (c :: ·)
  | .surrogate high :: .surrogate low :: rest =>
    if isHighSurrogate high && isLowSurrogate low then
      (joinPieces? rest).map
        (Char.ofNat (0x10000 + (high - 0xD800) * 0x400 + (low - 0xDC00)) :: ·)
    else none
  | .surrogate _ :: _ => none

/-! ## Texts -/

/-- The token at the front of a text without leading white space, and the rest. -/
def token? : List Char → Option (Token × List Char)
  | '[' :: rest => some (.openArray, rest)
  | ']' :: rest => some (.closeArray, rest)
  | '\x7b' :: rest => some (.openObject, rest)
  | '\x7d' :: rest => some (.closeObject, rest)
  | ',' :: rest => some (.comma, rest)
  | ':' :: rest => some (.colon, rest)
  | 'n' :: 'u' :: 'l' :: 'l' :: rest => some (.leaf .null, rest)
  | 't' :: 'r' :: 'u' :: 'e' :: rest => some (.leaf (.bool true), rest)
  | 'f' :: 'a' :: 'l' :: 's' :: 'e' :: rest => some (.leaf (.bool false), rest)
  | '"' :: rest =>
    -- a string that is no text is still a token, so it may stand where nobody reads it
    (pieces? rest).map fun (ps, rest) =>
      (.leaf (.string ((joinPieces? ps).map String.ofList)), rest)
  | s => (numeral? s).map fun (n, rest) => (.leaf (.number n), rest)

/-- The tokens of a text. Each takes at least one character, so the length of the text is fuel
enough. -/
def tokensFrom? : Nat → List Char → Option (List Token)
  | fuel, s =>
    match s.dropWhile isSpace, fuel with
    | [], _ => some []
    | _, 0 => none
    | s, fuel + 1 =>
      match token? s with
      | some (t, rest) => (tokensFrom? fuel rest).map (t :: ·)
      | none => none

/-- The tokens of a text. -/
def tokens? (s : List Char) : Option (List Token) :=
  tokensFrom? s.length s

end ModelGraph.Json
