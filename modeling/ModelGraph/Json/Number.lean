import ModelGraph.Binary64.Text
import ModelGraph.Json.Token
import ModelGraph.Tree.Basic

/-!
# JSON numbers

The values of JSON numbers. A number without fraction and exponent is an integer while it fits into
64 bits. Any other number is computed in two roundings: its leading digits that fit into 64 bits,
without regard to the point, are rounded to a floating point number, and this is multiplied or
divided by a power of ten. A number beyond the range is refused.
-/

namespace ModelGraph.Json

/-! ## Significands -/

/-- The digits taken into a 64-bit significand: it stops at the first digit that does not fit.
Answers the significand and the number of digits taken. -/
def takeDigits : Nat → Nat → List Char → Nat × Nat
  | significand, taken, [] => (significand, taken)
  | significand, taken, c :: rest =>
    let next := significand * 10 + (c.toNat - '0'.toNat)
    if next < Nat.pow 2 64 then takeDigits next (taken + 1) rest else (significand, taken)

/-- The power of ten that is written with a sign and digits. -/
def Numeral.writtenExponent (n : Numeral) : Int :=
  match n.exponent with
  | none => 0
  | some (negative, digits) =>
    if negative then -(Text.decimalValue digits : Int) else (Text.decimalValue digits : Int)

/-- The significand of a number, and the power of ten that goes with it. Digits in front of the
point that were left out count in the power, and so do those behind it that were taken. -/
def Numeral.scaled (n : Numeral) : Nat × Int :=
  let fraction := n.fraction.getD []
  let (whole, wholeTaken) := takeDigits 0 0 n.whole
  let dropped := n.whole.length - wholeTaken
  let (significand, fractionTaken) := takeDigits whole 0 fraction
  (significand, (dropped : Int) - fractionTaken + n.writtenExponent)

/-! ## Values -/

/-- The greatest power of ten in the format's range. -/
def greatestPower : Nat := 308

/-- The power of ten nearest to `10 ^ n`. -/
def powerOfTen (n : Nat) : Binary64 := Binary64.ofNat (Nat.pow 10 n)

/-- A number divided by a power of ten, in steps of the greatest power. A positive number is zero
after three steps, so more than four are never needed. -/
def divideByPower : Nat → Binary64 → Nat → Binary64
  | 0, x, _ => x
  | steps + 1, x, n =>
    if n ≤ greatestPower then x.div (powerOfTen n)
    else if x.isZero then x
    else divideByPower steps (x.div (powerOfTen greatestPower)) (n - greatestPower)

/-- The floating point value of a number, if it is in range. -/
def Numeral.float? (n : Numeral) : Option Binary64 :=
  let (significand, exponent) := n.scaled
  let x := Binary64.ofNat significand
  let magnitude : Option Binary64 :=
    -- a quotient may become zero, which is in range
    if exponent < 0 then some (divideByPower 5 x (-exponent).toNat)
    -- zero stays zero, whatever its exponent
    else if greatestPower < exponent.toNat then (if significand = 0 then some x else none)
    else
      let y := x.mul (powerOfTen exponent.toNat)
      if y.isFinite then some y else none
  magnitude.map fun y => if n.negative then y.neg else y

/-- The value of a number as a leaf of a tree. The integer zero with a minus sign is a floating
point number. -/
def Numeral.scalar? (n : Numeral) : Option Scalar :=
  let value := Text.decimalValue n.whole
  if n.fraction.isNone && n.exponent.isNone then
    if n.negative then
      -- zero is left to the floating point numbers, which keep its sign
      if 1 ≤ value ∧ value ≤ Nat.pow 2 63 then some (.int (Int64.ofInt (-(value : Int))))
      else n.float?.map .float
    else if value < Nat.pow 2 64 then some (Scalar.ofUnsigned (UInt64.ofNat value))
    -- an integer that is too large is read as if it had a fraction
    else n.float?.map .float
  else n.float?.map .float

/-- The value of a number where a signed 64-bit number is wanted. -/
def Numeral.integer? (n : Numeral) : Option Int64 :=
  match n.scalar? with
  | some (.int value) => some value
  | _ => none

end ModelGraph.Json
