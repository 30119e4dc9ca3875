import ModelGraph.Binary64.Shortest
import ModelGraph.Text.Digits

/-!
# Texts of floating point numbers

Reading decimal literals, and laying out the shortest digits of a value by the decisions of a
format: where positional notation ends, whether whole values keep `.0`, how a positive exponent is
signed, which way ties go and what the special values are called.
-/

namespace ModelGraph
namespace Binary64

/-! ## Reading -/

/-- A decimal literal taken apart: its digits before and after the point and its exponent. -/
structure Literal where
  negative : Bool
  whole : List Char
  fraction : List Char
  exponent : Int
  deriving DecidableEq, Repr

/-- The exponent part of a literal. The empty text is the exponent zero. -/
def readExponent? : List Char → Option Int
  | [] => some 0
  | mark :: rest =>
    if mark = 'e' ∨ mark = 'E' then
      match rest with
      | '+' :: digits => (Text.readNatural? 10 digits).map Int.ofNat
      | '-' :: digits => (Text.readNatural? 10 digits).map fun n => -(n : Int)
      | digits => (Text.readNatural? 10 digits).map Int.ofNat
    else none

/-- A literal without its sign: digits with at most one point among them, at least one digit, and
an optional exponent. -/
def readMagnitude? (negative : Bool) (s : List Char) : Option Literal :=
  let whole := s.takeWhile Text.isDigit
  let (fraction, rest) :=
    match s.dropWhile Text.isDigit with
    | '.' :: rest => (rest.takeWhile Text.isDigit, rest.dropWhile Text.isDigit)
    | rest => ([], rest)
  -- a point may stand at either end of the digits, but not alone
  if whole.isEmpty && fraction.isEmpty then none
  else (readExponent? rest).map fun exponent => ⟨negative, whole, fraction, exponent⟩

/-- A decimal literal with an optional sign. -/
def readLiteral? : List Char → Option Literal
  | '+' :: rest => readMagnitude? false rest
  | '-' :: rest => readMagnitude? true rest
  | s => readMagnitude? false s

/-- The value nearest to a literal. -/
def Literal.value (l : Literal) : Binary64 :=
  let digits := l.whole ++ l.fraction
  -- the point moves behind all digits, and the exponent makes up for it
  ofDecimal l.negative (Text.decimalValue digits) digits.length (l.exponent - l.fraction.length)

/-- The value of a literal, or of one of the words for the special values. -/
def ofText? (s : List Char) : Option Binary64 :=
  match s with
  | ['N', 'a', 'N'] => some nan
  | ['i', 'n', 'f'] => some (infinite false)
  | ['-', 'i', 'n', 'f'] => some (infinite true)
  | _ => (readLiteral? s).map Literal.value

/-! ## Writing -/

/-- The decisions of a format. `low < k ≤ high` bounds the number `k` of digits before the point
for which positional notation is used; without bounds it always is. -/
structure Layout where
  bounds : Option (Int × Int)
  wholePoint : Bool
  plusSign : Bool
  tie : Tie
  missing : List Char
  infinity : List Char

/-- Digits with the point after the first `position` of them, filled up with zeros. -/
def positional (wholePoint : Bool) (digits : List Char) (position : Int) : List Char :=
  if position ≤ 0 then
    ['0', '.'] ++ List.replicate (-position).toNat '0' ++ digits
  else if digits.length ≤ position.toNat then
    digits ++ List.replicate (position.toNat - digits.length) '0' ++
      (if wholePoint then ['.', '0'] else [])
  else digits.take position.toNat ++ '.' :: digits.drop position.toNat

/-- Digits with the point after the first of them and an exponent. -/
def scientific (plusSign : Bool) (digits : List Char) (exponent : Int) : List Char :=
  let sign := if plusSign && 0 ≤ exponent then ['+'] else []
  let mantissa :=
    match digits with
    | first :: next :: rest => first :: '.' :: next :: rest
    | short => short
  mantissa ++ 'e' :: sign ++ Text.decimalInt exponent

/-- The text of a positive decimal. -/
def Layout.decimal (layout : Layout) (d : Decimal) : List Char :=
  let digits := Text.decimal d.digits
  -- the number of digits in front of the point, which is not positive below one tenth
  let position : Int := d.exponent + digits.length
  let isPositional :=
    match layout.bounds with
    | none => true
    | some (low, high) => low < position && position ≤ high
  if isPositional then positional layout.wholePoint digits position
  else scientific layout.plusSign digits (position - 1)

/-- The text of a value. -/
def Layout.text (layout : Layout) : Binary64 → List Char
  | nan => layout.missing
  | infinite negative => (if negative then ['-'] else []) ++ layout.infinity
  | finite negative significand exponent =>
    (if negative then ['-'] else []) ++
      -- the search for the shortest digits is for positive values
      if significand = 0 then (if layout.wholePoint then ['0', '.', '0'] else ['0'])
      else layout.decimal (shortest layout.tie significand exponent)

/-- The everyday text of a number: never an exponent, no point after a whole value. -/
def plainLayout : Layout where
  bounds := none
  wholePoint := false
  plusSign := false
  tie := .away
  missing := ['N', 'a', 'N']
  infinity := ['i', 'n', 'f']

/-- The text of a number inside a description of a value: always recognisable as a fractional
number, with an exponent outside `10^-4 ≤ x < 10^16`. -/
def inspectLayout : Layout where
  bounds := some (-4, 16)
  wholePoint := true
  plusSign := false
  tie := .away
  missing := ['N', 'a', 'N']
  infinity := ['i', 'n', 'f']

/-- The everyday text of a number. -/
def plainText (x : Binary64) : List Char :=
  plainLayout.text x

end Binary64
end ModelGraph
