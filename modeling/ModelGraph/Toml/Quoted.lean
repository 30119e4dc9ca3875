import ModelGraph.Text.Digits
import ModelGraph.Toml.Char

/-!
# Quoted TOML texts

Texts between quotes. Between double quotes a backslash introduces an escape, between single quotes
it is a character like others. Three quotes enclose a text of several lines, which may itself have
up to two quotes at its end.
-/

namespace ModelGraph.Toml

/-- A way to enclose a text: by single or by double quotes, within one line or over several. -/
structure Quoting where
  double : Bool
  lines : Bool
  deriving DecidableEq, Repr

/-- The quote character. -/
def Quoting.quote (q : Quoting) : Char :=
  if q.double then '"' else '\''

/-- Where the reading of a text stands: among its characters, behind a backslash, inside a code
with so many digits to come, behind a backslash and blanks, or behind the end of a line that a
backslash has taken away. -/
inductive Quoting.Place where
  | inside
  | escape
  | code (left value : Nat)
  | gap
  | folded
  deriving DecidableEq, Repr

/-- The character of an escape of one letter. -/
def simpleEscape? : Char → Option Char
  | 'b' => some '\x08'
  | 't' => some '\t'
  | 'n' => some '\n'
  | 'f' => some '\x0c'
  | 'r' => some '\r'
  | '"' => some '"'
  | '\\' => some '\\'
  | _ => none

/-- The character with a code, unless the code is half of a surrogate pair or too large. -/
def charOfCode? (n : Nat) : Option Char :=
  if n < 0xD800 ∨ (0xDFFF < n ∧ n < 0x110000) then some (Char.ofNat n) else none

/-- The end of a text, with the quotes that still belong to the text and what is left behind. -/
def Quoting.close? (q : Quoting) (s : List Char) : Option (List Char × List Char) :=
  let quotes := (s.takeWhile (· == q.quote)).length
  if q.lines then
    if quotes < 3 then none
    else
      -- more quotes than these are left behind the text, where nothing can take them
      let own := min (quotes - 3) 2
      some (List.replicate own q.quote, s.drop (own + 3))
  else if quotes = 0 then none
  else some ([], s.drop 1)

/-- The rest of a text up to its closing quotes, and what is left behind them. -/
def Quoting.content? (q : Quoting) : Quoting.Place → List Char → Option (List Char × List Char)
  | _, [] => none
  | place, c :: rest =>
    let keep (x : Char) := (q.content? .inside rest).map fun (text, rest) => (x :: text, rest)
    match place with
    | .escape =>
      if c == 'u' then q.content? (.code 4 0) rest
      else if c == 'U' then q.content? (.code 8 0) rest
      else if q.lines && isBlank c then q.content? .gap rest
      else if q.lines && c == '\n' then q.content? .folded rest
      else
        match simpleEscape? c with
        | some x => keep x
        | none => none
    | .code left value =>
      match Text.digitValue? 16 c with
      | none => none
      | some d =>
        -- the last digit
        if left ≤ 1 then
          match charOfCode? (value * 16 + d) with
          | some x => keep x
          | none => none
        else q.content? (.code (left - 1) (value * 16 + d)) rest
    | .gap =>
      if isBlank c then q.content? .gap rest
      else if c == '\n' then q.content? .folded rest
      else none
    | _ =>
      -- blanks and ends of lines are taken away until another character comes
      if place = .folded ∧ (isBlank c ∨ c = '\n') then q.content? .folded rest
      else
        match q.close? (c :: rest) with
        | some closed => some closed
        | none =>
          if q.double && c == '\\' then q.content? .escape rest
          else if isPlain c || (q.lines && c == '\n') then keep c
          else none

/-- The text behind the opening quotes. The end of a line directly behind them does not count. -/
def Quoting.text? (q : Quoting) (s : List Char) : Option (String × List Char) :=
  let s :=
    match q.lines, s with
    | true, '\n' :: rest => rest
    | _, s => s
  (q.content? .inside s).map fun (text, rest) => (String.ofList text, rest)

/-- A text within one line. -/
def line? : List Char → Option (String × List Char)
  | '"' :: rest => Quoting.text? ⟨true, false⟩ rest
  | '\'' :: rest => Quoting.text? ⟨false, false⟩ rest
  | _ => none

/-- A text of either kind. -/
def text? : List Char → Option (String × List Char)
  | '"' :: '"' :: '"' :: rest => Quoting.text? ⟨true, true⟩ rest
  | '\'' :: '\'' :: '\'' :: rest => Quoting.text? ⟨false, true⟩ rest
  | s => line? s

end ModelGraph.Toml
