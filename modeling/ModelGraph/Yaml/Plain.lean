import ModelGraph.Tree.Basic

/-!
# Values of plain scalars

What a plain scalar stands for, by its text: nothing, a truth value, a number or a text.

- `integer?`: the integer written in a text, in one of four bases.
- `float?`: the floating point number written in a text.
- `Value.ofText`: the value of a plain scalar. An integer that is too large for 64 bits but not for
  128 has none.
-/

namespace ModelGraph.Yaml.Plain

/-! ## Words -/

/-- A word for nothing. -/
def isNull (s : List Char) : Bool :=
  s == ['~'] || s == ['n', 'u', 'l', 'l'] || s == ['N', 'u', 'l', 'l'] || s == ['N', 'U', 'L', 'L']

/-- A word for a truth value. -/
def bool? (s : List Char) : Option Bool :=
  if s = ['t', 'r', 'u', 'e'] ∨ s = ['T', 'r', 'u', 'e'] ∨ s = ['T', 'R', 'U', 'E'] then some true
  else if s = ['f', 'a', 'l', 's', 'e'] ∨ s = ['F', 'a', 'l', 's', 'e'] ∨
      s = ['F', 'A', 'L', 'S', 'E'] then some false
  else none

/-! ## Integers -/

/-- A sign of a number. -/
def isSign (c : Char) : Bool := c == '+' || c == '-'

/-- Text without one sign in front. -/
def unsigned : List Char → List Char
  | c :: rest => if isSign c then rest else c :: rest
  | [] => []

/-- Two or more digits, the first of them zero, after at most one sign: a text, not a number. -/
def isZeroPadded (s : List Char) : Bool :=
  match unsigned s with
  | '0' :: c :: rest => (c :: rest).all Text.isDigit
  | _ => false

/-- The number of a numeral with a prefix for its base, or of a decimal numeral that is not padded
with zeros. -/
def magnitude? (s : List Char) : Option Nat :=
  match s with
  | '0' :: 'x' :: digits => Text.readNatural? 16 digits
  | '0' :: 'o' :: digits => Text.readNatural? 8 digits
  | '0' :: 'b' :: digits => Text.readNatural? 2 digits
  | digits => if isZeroPadded digits then none else Text.readNatural? 10 digits

/-- The integer written in a text, of any size. -/
def integer? : List Char → Option Int
  | '+' :: s => (magnitude? s).map Int.ofNat
  | '-' :: s => (magnitude? s).map fun n => -(n : Int)
  | s => (magnitude? s).map Int.ofNat

/-! ## Floating point numbers -/

/-- The floating point number written in a text: a word for a special value, or a decimal literal
of a finite value. A plus sign is only allowed in front of no other sign. -/
def float? (s : List Char) : Option Binary64 :=
  let positive? : Option (List Char) :=
    match s with
    | '+' :: c :: rest => if isSign c then none else some (c :: rest)
    | '+' :: [] => some []
    | _ => some s
  positive?.bind fun positive =>
    if positive = ['.', 'i', 'n', 'f'] ∨ positive = ['.', 'I', 'n', 'f'] ∨
        positive = ['.', 'I', 'N', 'F'] then some (.infinite false)
    else if s = ['-', '.', 'i', 'n', 'f'] ∨ s = ['-', '.', 'I', 'n', 'f'] ∨
        s = ['-', '.', 'I', 'N', 'F'] then some (.infinite true)
    else if s = ['.', 'n', 'a', 'n'] ∨ s = ['.', 'N', 'a', 'N'] ∨ s = ['.', 'N', 'A', 'N'] then
      some .nan
    else
      ((Binary64.readLiteral? positive).map Binary64.Literal.value).filter Binary64.isFinite

/-! ## Values -/

/-- An integer as a leaf, if it fits into 64 bits. -/
def integerLeaf? (i : Int) : Option Scalar :=
  if 0 ≤ i then
    if i < Nat.pow 2 64 then some (Scalar.ofUnsigned (UInt64.ofNat i.toNat)) else none
  else if -(Nat.pow 2 63 : Int) ≤ i then some (.int (Int64.ofInt i)) else none

/-- The integer fits into 128 bits. -/
def fitsWide (i : Int) : Bool := -(Nat.pow 2 127 : Int) ≤ i && i < Nat.pow 2 128

/-- The value of a plain scalar. -/
inductive Value where
  | null
  | leaf (value : Scalar)
  | outOfRange
  deriving DecidableEq, Repr

/-- The value of a text that is no integer within 128 bits. -/
def Value.ofOther (s : List Char) : Value :=
  -- digits padded with zeros would be read as a float otherwise
  if isZeroPadded s then leaf (.text (String.ofList s))
  else
    match float? s with
    | some x => leaf (.float x)
    | none => leaf (.text (String.ofList s))

/-- The value of a plain scalar. -/
def Value.ofText (s : List Char) : Value :=
  if s.isEmpty || isNull s then null
  else
    match bool? s with
    | some b => leaf (.bool b)
    | none =>
      match integer? s with
      | some i =>
        match integerLeaf? i with
        | some value => leaf value
        -- an integer that fits into 128 bits but not into 64 has no value, and a wider one is
        -- read as a float
        | none => if fitsWide i then outOfRange else Value.ofOther s
      | none => Value.ofOther s

/-- A text that a plain scalar can stand for without being taken for something else. -/
def isText (s : List Char) : Bool :=
  match Value.ofText s with
  | .leaf (.text _) => !isZeroPadded s
  | _ => false

end ModelGraph.Yaml.Plain
