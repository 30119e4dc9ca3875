/-!
# Binary floating point numbers

The values of the 64-bit binary format, written as a sign, a significand and a power of two, with
rounding of exact quotients to the nearest value and ties to the even significand. All arithmetic
is exact arithmetic on natural numbers, so every function here computes in proofs as well.

- `Binary64.ofRatio`: a quotient of natural numbers, rounded.
- `Binary64.mul`, `Binary64.div`: products and quotients, rounded once.
- `Binary64.same`: equality of numbers, where the two zeros agree and a missing number differs
  from itself.
-/

namespace ModelGraph

/-- A value of the 64-bit binary format. A finite value is `significand * 2 ^ exponent` with its
sign; the two zeros differ in their sign. -/
inductive Binary64 where
  | nan
  | infinite (negative : Bool)
  | finite (negative : Bool) (significand : Nat) (exponent : Int)
  deriving DecidableEq, Repr

namespace Binary64

/-! ## The finite values -/

/-- The exponent of the least positive value. -/
def leastExponent : Int := -1074

/-- The exponent of the greatest finite value. -/
def greatestExponent : Int := 971

/-- One more than the greatest significand. -/
def significandLimit : Nat := Nat.pow 2 53

/-- A finite value in its only form: the significand uses all its bits unless the exponent is
already the least one. -/
def Canonical : Binary64 → Prop
  | finite _ significand exponent =>
    significand < significandLimit ∧ leastExponent ≤ exponent ∧ exponent ≤ greatestExponent ∧
      (significandLimit / 2 ≤ significand ∨ exponent = leastExponent)
  | _ => True

/-- The zero with a sign. -/
def zero (negative : Bool) : Binary64 :=
  finite negative 0 leastExponent

/-- A number that is neither infinite nor missing. -/
def isFinite : Binary64 → Bool
  | finite .. => true
  | _ => false

/-- Either of the two zeros. -/
def isZero : Binary64 → Bool
  | finite _ significand _ => significand == 0
  | _ => false

/-- The same number with its sign turned. -/
def neg : Binary64 → Binary64
  | nan => nan
  | infinite negative => infinite (!negative)
  | finite negative significand exponent => finite (!negative) significand exponent

/-- Equality of numbers: the two zeros are equal and the missing number equals nothing. -/
def same (x y : Binary64) : Bool :=
  match x, y with
  | nan, _ => false
  | _, nan => false
  | infinite a, infinite b => a == b
  | finite a m p, finite b n q => (m == 0 && n == 0) || (a == b && m == n && p == q)
  | _, _ => false

/-! ## Rounding -/

/-- A quotient rounded to the nearest natural number, a tie to the even one. The rest of the
division is compared with half of the divisor, so nothing is lost before the rounding. -/
def roundToEven (num den : Nat) : Nat :=
  let quotient := num / den
  let rest := num % den
  if 2 * rest < den then quotient
  else if den < 2 * rest then quotient + 1
  else if quotient % 2 = 0 then quotient else quotient + 1

/-- A quotient divided by a power of two, as a pair of natural numbers. -/
def scaleRatio (num den : Nat) (exponent : Int) : Nat × Nat :=
  if 0 ≤ exponent then (num, den * Nat.pow 2 exponent.toNat)
  else (num * Nat.pow 2 (-exponent).toNat, den)

/-- The exponent at which a positive quotient has a significand of full width, or the least
exponent if that is greater. The first guess from the lengths of the two numbers is too large by
at most one. -/
def exponentOf (num den : Nat) : Int :=
  let guess : Int := (num.log2 : Int) - (den.log2 : Int) - 52
  let (n, d) := scaleRatio num den guess
  -- the guess is too large where the quotient has less than the full width
  let exact := if n / d < significandLimit / 2 then guess - 1 else guess
  max exact leastExponent

/-- The value nearest to `num / den`, or an infinity when that is too large. -/
def ofRatio (negative : Bool) (num den : Nat) : Binary64 :=
  if num = 0 then zero negative
  else
    -- at this exponent the significand is the quotient, rounded once
    let exponent := exponentOf num den
    let (n, d) := scaleRatio num den exponent
    let rounded := roundToEven n d
    -- rounding up may give one digit more than fits, and then it gives a power of two
    let (significand, exponent) :=
      if rounded = significandLimit then (significandLimit / 2, exponent + 1)
      else (rounded, exponent)
    if greatestExponent < exponent then infinite negative
    else finite negative significand exponent

/-- The value nearest to a natural number. -/
def ofNat (n : Nat) : Binary64 :=
  ofRatio false n 1

/-- The value nearest to an integer. -/
def ofInt (i : Int) : Binary64 :=
  ofRatio (i < 0) i.natAbs 1

/-- The value nearest to `digits * 10 ^ exponent`. The two early exits keep the powers small: the
digits are fewer than `10 ^ length`, so the answer is known far outside the format's range. -/
def ofDecimal (negative : Bool) (digits : Nat) (length : Nat) (exponent : Int) : Binary64 :=
  if digits = 0 then zero negative
  -- at least one digit is not zero, so the value is above every finite one
  else if 400 < exponent then infinite negative
  else if exponent + length < -400 then zero negative
  else if 0 ≤ exponent then ofRatio negative (digits * Nat.pow 10 exponent.toNat) 1
  else ofRatio negative digits (Nat.pow 10 (-exponent).toNat)

/-! ## Arithmetic -/

/-- A product, rounded. -/
def mul : Binary64 → Binary64 → Binary64
  | nan, _ => nan
  | _, nan => nan
  | infinite a, infinite b => infinite (a != b)
  | infinite a, finite b n _ => if n = 0 then nan else infinite (a != b)
  | finite a m _, infinite b => if m = 0 then nan else infinite (a != b)
  | finite a m p, finite b n q =>
    let exponent := p + q
    -- the product is exact as a quotient of natural numbers, and rounded as such
    if 0 ≤ exponent then ofRatio (a != b) (m * n * Nat.pow 2 exponent.toNat) 1
    else ofRatio (a != b) (m * n) (Nat.pow 2 (-exponent).toNat)

/-- A quotient, rounded. -/
def div : Binary64 → Binary64 → Binary64
  | nan, _ => nan
  | _, nan => nan
  | infinite _, infinite _ => nan
  | infinite a, finite b _ _ => infinite (a != b)
  | finite a _ _, infinite b => zero (a != b)
  | finite a m p, finite b n q =>
    -- a number divided by zero is infinite, and zero divided by zero is missing
    if n = 0 then (if m = 0 then nan else infinite (a != b))
    else
      let exponent := p - q
      if 0 ≤ exponent then ofRatio (a != b) (m * Nat.pow 2 exponent.toNat) n
      else ofRatio (a != b) m (n * Nat.pow 2 (-exponent).toNat)

end Binary64
end ModelGraph
