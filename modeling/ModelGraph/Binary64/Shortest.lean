import ModelGraph.Binary64.Basic

/-!
# Shortest decimals

The fewest decimal digits that read back to a binary value, and among those the nearest. The
search runs over ever finer decimal grids and tests on each the two neighbours of the value in
exact arithmetic; the first grid with a hit gives the digits. What happens when two neighbours are
equally near is a choice of the format that prints them.
-/

namespace ModelGraph
namespace Binary64

/-- Which of two equally near decimals is taken. -/
inductive Tie where
  | toEven
  | away
  deriving DecidableEq, Repr

/-- `digits * 10 ^ exponent`. -/
structure Decimal where
  digits : Nat
  exponent : Int
  deriving DecidableEq, Repr

/-- Compares `a * 10 ^ i` with `n * 2 ^ j`, exactly. -/
def compareScaled (a : Nat) (i : Int) (n : Nat) (j : Int) : Ordering :=
  compare (a * Nat.pow 10 i.toNat * Nat.pow 2 (-j).toNat)
    (n * Nat.pow 2 j.toNat * Nat.pow 10 (-i).toNat)

/-- The decimal lies among the reals that round to `significand * 2 ^ exponent`: between the
middles to the two neighbours, the middles included for an even significand. The gap below a power
of two is half as wide. -/
def readsBack (significand : Nat) (exponent : Int) (d : Decimal) : Bool :=
  let narrowBelow := significand == significandLimit / 2 && leastExponent < exponent
  -- counted in quarters, so that the middles are whole also where the gap below is narrow
  let low := if narrowBelow then 4 * significand - 1 else 4 * significand - 2
  let high := 4 * significand + 2
  let included := significand % 2 == 0
  let atLow := compareScaled d.digits d.exponent low (exponent - 2)
  let atHigh := compareScaled d.digits d.exponent high (exponent - 2)
  (atLow == .gt || (included && atLow == .eq)) && (atHigh == .lt || (included && atHigh == .eq))

/-- The exponent of the leading decimal digit of `num / den`, for positive numbers. -/
def leadingExponent (num den : Nat) : Int :=
  if den ≤ num then ((Nat.toDigits 10 (num / den)).length : Int) - 1
  -- the inverse rounded up, less one so that an exact power of ten has a digit less
  else -((Nat.toDigits 10 ((den + num - 1) / num - 1)).length : Int)

/-- A decimal without trailing zeros in its digits. The fuel is the number of zeros taken at
most. -/
def Decimal.strip : Nat → Decimal → Decimal
  | 0, d => d
  | fuel + 1, d =>
    if d.digits ≠ 0 ∧ d.digits % 10 = 0 then Decimal.strip fuel ⟨d.digits / 10, d.exponent + 1⟩
    else d

/-- The better of the two neighbours of `num / den` on the grid `10 ^ exponent`, if one of them
reads back. -/
def onGrid (tie : Tie) (significand : Nat) (exponent : Int) (num den : Nat) (grid : Int) :
    Option Decimal :=
  let (n, d) :=
    if 0 ≤ grid then (num, den * Nat.pow 10 grid.toNat)
    else (num * Nat.pow 10 (-grid).toNat, den)
  let below := n / d
  let lower : Decimal := ⟨below, grid⟩
  let upper : Decimal := ⟨below + 1, grid⟩
  -- only two decimals of the grid are near enough, the ones around the value
  match readsBack significand exponent lower, readsBack significand exponent upper with
  | false, false => none
  | true, false => some lower
  | false, true => some upper
  | true, true =>
    -- both read back, so the nearer one is taken
    match compare (2 * n) ((2 * below + 1) * d) with
    | .lt => some lower
    | .gt => some upper
    | .eq =>
      match tie with
      | .away => some upper
      | .toEven => if below % 2 = 0 then some lower else some upper

/-- The shortest decimal that reads back to `significand * 2 ^ exponent`. Seventeen digits always
suffice; were they not to, the exact value would be written. -/
def shortest (tie : Tie) (significand : Nat) (exponent : Int) : Decimal :=
  let num := significand * Nat.pow 2 exponent.toNat
  -- one of the two powers is one
  let den := Nat.pow 2 (-exponent).toNat
  let leading := leadingExponent num den
  -- the coarsest grid has a single digit, and each step makes it ten times as fine
  let found := (List.range 17).findSome? fun (fineness : Nat) =>
    onGrid tie significand exponent num den (leading - fineness)
  match found with
  | some d => d.strip 400
  | none =>
    if 0 ≤ exponent then ⟨num, 0⟩ else ⟨significand * Nat.pow 5 (-exponent).toNat, exponent⟩

end Binary64
end ModelGraph
