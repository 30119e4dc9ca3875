/-!
# Digits

Digit characters and positional numerals over lists of characters, in bases up to sixteen.

- `digitValue?`: the value of a digit character of a base.
- `readNatural?`: the number a non-empty run of digits stands for, without an upper limit.
- `decimal`, `decimalInt`, `padded`, `upperHex`, `lowerHex`: the texts of numbers.
-/

namespace ModelGraph.Text

/-! ## Reading -/

/-- The value of a digit character. Letters count in both cases. -/
def digitValue? (base : Nat) (c : Char) : Option Nat :=
  let value :=
    if '0' ≤ c ∧ c ≤ '9' then some (c.toNat - '0'.toNat)
    else if 'a' ≤ c ∧ c ≤ 'f' then some (c.toNat - 'a'.toNat + 10)
    else if 'A' ≤ c ∧ c ≤ 'F' then some (c.toNat - 'A'.toNat + 10)
    else none
  value.filter (· < base)

/-- A decimal digit. -/
def isDigit (c : Char) : Bool :=
  '0' ≤ c && c ≤ '9'

/-- The number that digits already read, followed by more digits, stand for. -/
def readNaturalFrom? (base : Nat) : Nat → List Char → Option Nat
  | read, [] => some read
  | read, c :: rest =>
    match digitValue? base c with
    | some d => readNaturalFrom? base (read * base + d) rest
    | none => none

/-- The number a numeral stands for. The empty text is no numeral. -/
def readNatural? (base : Nat) : List Char → Option Nat
  | [] => none
  | digits => readNaturalFrom? base 0 digits

/-- The number a run of decimal digits stands for, counting other characters as zero. -/
def decimalValue (digits : List Char) : Nat :=
  digits.foldl (fun read c => read * 10 + (c.toNat - '0'.toNat)) 0

/-! ## Writing -/

/-- The decimal text of a natural number. -/
def decimal (n : Nat) : List Char :=
  Nat.toDigits 10 n

/-- The decimal text of an integer, with a minus sign when it is negative. -/
def decimalInt (i : Int) : List Char :=
  if i < 0 then '-' :: decimal i.natAbs else decimal i.natAbs

/-- Decimal text brought to a least width with leading zeros. -/
def padded (width : Nat) (n : Nat) : List Char :=
  let digits := decimal n
  List.replicate (width - digits.length) '0' ++ digits

/-- A hexadecimal digit with capital letters. -/
def upperHexDigit (d : Nat) : Char :=
  if d < 10 then Char.ofNat ('0'.toNat + d) else Char.ofNat ('A'.toNat + (d - 10))

/-- The last `width` hexadecimal digits of a number, with capital letters. -/
def upperHex : Nat → Nat → List Char
  | 0, _ => []
  | width + 1, n => upperHex width (n / 16) ++ [upperHexDigit (n % 16)]

/-- A hexadecimal digit with small letters. -/
def lowerHexDigit (d : Nat) : Char :=
  if d < 10 then Char.ofNat ('0'.toNat + d) else Char.ofNat ('a'.toNat + (d - 10))

/-- The last `width` hexadecimal digits of a number, with small letters. -/
def lowerHex : Nat → Nat → List Char
  | 0, _ => []
  | width + 1, n => lowerHex width (n / 16) ++ [lowerHexDigit (n % 16)]

end ModelGraph.Text
