import ModelGraph.Binary64.Text
import ModelGraph.Text.Basic
import ModelGraph.Toml.Char

/-!
# TOML literals

Numbers, dates, times and truth values. A literal is the longest run of characters that may stand
in one; a date and the time behind it may also be separated by a blank.

- `Leaf`: the values without parts.
- `leaf?`: the value of a literal.
-/

namespace ModelGraph.Toml

/-- A value without parts. A date or a time is kept as it is written. -/
inductive Leaf where
  | text (value : String)
  | integer (value : Int64)
  | float (value : Binary64)
  | bool (value : Bool)
  | moment (written : String)
  deriving DecidableEq, Repr

/-! ## Numbers -/

/-- Digits without the underscores between them. -/
def grouped? (base : Nat) (s : List Char) : Option (List Char) :=
  let groups := Text.pieces '_' s
  if groups.all fun g => !g.isEmpty && g.all fun c => (Text.digitValue? base c).isSome then
    some groups.flatten
  else none

/-- The digits of a whole decimal number, which do not begin with a needless zero. -/
def whole? (s : List Char) : Option (List Char) :=
  (grouped? 10 s).filter fun digits => digits.length = 1 || digits.head? != some '0'

/-- A sign, if there is one, and what follows. -/
def signed : List Char → Bool × List Char
  | '+' :: rest => (false, rest)
  | '-' :: rest => (true, rest)
  | s => (false, s)

/-- A signed number in the range of 64 bits. -/
def int64? (negative : Bool) (magnitude : Nat) : Option Int64 :=
  let value : Int := if negative then -(magnitude : Int) else magnitude
  if -(Nat.pow 2 63 : Int) ≤ value ∧ value < Nat.pow 2 63 then some (Int64.ofInt value) else none

/-- The value of a number in another base than ten. -/
def based? (base : Nat) (s : List Char) : Option Int64 := do
  int64? false (← Text.readNatural? base (← grouped? base s))

/-- An integer. -/
def integer? : List Char → Option Int64
  | '0' :: 'x' :: rest => based? 16 rest
  | '0' :: 'o' :: rest => based? 8 rest
  | '0' :: 'b' :: rest => based? 2 rest
  | s => do
    let (negative, digits) := signed s
    int64? negative (Text.decimalValue (← whole? digits))

/-- A number with a fraction or an exponent. One beyond the greatest number is refused, one below
the least is infinite. -/
def float? (s : List Char) : Option Binary64 := do
  let isMark (c : Char) : Bool := c == 'e' || c == 'E'
  let (negative, unsigned) := signed s
  let mantissa := unsigned.takeWhile (!isMark ·)
  let wholePart := mantissa.takeWhile (· != '.')
  let whole ← whole? wholePart
  let fraction ←
    match mantissa.drop wholePart.length with
    | [] => some none
    | _ :: digits => (grouped? 10 digits).map some
  let exponent : Option Int ←
    match unsigned.drop mantissa.length with
    | [] => some none
    | _ :: rest => do
      let (below, digits) := signed rest
      let value := Text.decimalValue (← grouped? 10 digits)
      some (some (if below then -(value : Int) else value))
  -- without either it is an integer
  if fraction.isNone && exponent.isNone then none
  else
    let literal : Binary64.Literal := ⟨negative, whole, fraction.getD [], exponent.getD 0⟩
    -- only the positive infinity is refused
    if literal.value = .infinite false then none else some literal.value

/-- The words for the special numbers. -/
def special? (s : List Char) : Option Binary64 :=
  let (negative, word) := signed s
  if word = ['i', 'n', 'f'] then some (.infinite negative)
  else if word = ['n', 'a', 'n'] then some .nan
  else none

/-! ## Dates and times -/

/-- A number of two digits within bounds. -/
def twoDigits? (low high : Nat) (a b : Char) : Option Nat :=
  if Text.isDigit a && Text.isDigit b then
    some (Text.decimalValue [a, b]) |>.filter fun n => low ≤ n && n ≤ high
  else none

/-- The days of a month. -/
def daysOf (year month : Nat) : Nat :=
  if month = 2 then
    if year % 4 = 0 ∧ (year % 100 ≠ 0 ∨ year % 400 = 0) then 29 else 28
  else if month = 4 ∨ month = 6 ∨ month = 9 ∨ month = 11 then 30
  else 31

/-- A date of the calendar. -/
def isDate : List Char → Bool
  | [y₁, y₂, y₃, y₄, '-', m₁, m₂, '-', d₁, d₂] =>
    let year := [y₁, y₂, y₃, y₄]
    match twoDigits? 1 12 m₁ m₂ with
    | some month =>
      year.all Text.isDigit && (twoDigits? 1 (daysOf (Text.decimalValue year) month) d₁ d₂).isSome
    | none => false
  | _ => false

/-- The distance of a local time from the common one. -/
def isOffset : List Char → Bool
  | [z] => z == 'Z' || z == 'z'
  | [sign, h₁, h₂, ':', m₁, m₂] =>
    (sign == '+' || sign == '-') && (twoDigits? 0 23 h₁ h₂).isSome && (twoDigits? 0 59 m₁ m₂).isSome
  | _ => false

/-- The time of a day, with an offset where one is allowed. -/
def isTime (offset : Bool) : List Char → Bool
  | h₁ :: h₂ :: ':' :: m₁ :: m₂ :: ':' :: s₁ :: s₂ :: rest =>
    (twoDigits? 0 23 h₁ h₂).isSome && (twoDigits? 0 59 m₁ m₂).isSome &&
      -- a leap second has the number sixty
      (twoDigits? 0 60 s₁ s₂).isSome &&
      let behind (s : List Char) : Bool := s.isEmpty || (offset && isOffset s)
      match rest with
      | '.' :: fraction =>
        !(fraction.takeWhile Text.isDigit).isEmpty && behind (fraction.dropWhile Text.isDigit)
      | rest => behind rest
  | _ => false

/-- A date, a time, or both with a letter between them. -/
def isMoment (s : List Char) : Bool :=
  isDate s || isTime false s ||
    (isDate (s.take 10) &&
      match s.drop 10 with
      | mark :: time => (mark == 'T' || mark == 't') && isTime true time
      | [] => false)

/-! ## Literals -/

/-- The value of a run of characters. -/
def word? (s : List Char) : Option Leaf :=
  if s = ['t', 'r', 'u', 'e'] then some (.bool true)
  else if s = ['f', 'a', 'l', 's', 'e'] then some (.bool false)
  else if isMoment s then some (.moment (String.ofList s))
  else
    -- a number without a fraction and an exponent is tried as an integer last
    ((float? s).map .float).or (((special? s).map .float).or ((integer? s).map .integer))

/-- The literal at the front of a text. A digit that follows a date and a blank begins a time. -/
def leaf? (s : List Char) : Option (Leaf × List Char) :=
  let run := s.takeWhile isLiteral
  let rest := s.dropWhile isLiteral
  let alone := (word? run).map fun leaf => (leaf, rest)
  match rest with
  | ' ' :: c :: more =>
    -- only a digit makes the blank a part of the literal
    if isDate run && Text.isDigit c then
      let time := (c :: more).takeWhile isLiteral
      if isTime true time then
        some (.moment (String.ofList (run ++ ' ' :: time)), (c :: more).dropWhile isLiteral)
      else none
    else alone
  | _ => alone

end ModelGraph.Toml
