import ModelGraph.Text.Digits

/-!
# Laws of digits

The decimal text of a number reads back as this number, so different numbers have different texts,
and a number is never padded with zeros.

- `readNatural?_decimal`, `decimal_injective`: what is written is read.
- `readNaturalFrom?_digits`: reading a run of digits as a positional value.
- `readNatural?_upperHex`: the same for hexadecimal digits.
- `eq_zero_of_decimal`: only the number zero begins with the digit zero.
- `decimalValue_append`, `decimalValue_lt`: the value of a run of digits.
-/

namespace ModelGraph.Text

/-! ## Digits -/

/-- A decimal digit by its code point. -/
theorem isDigit_iff (c : Char) : isDigit c = true ↔ 48 ≤ c.toNat ∧ c.toNat ≤ 57 := by
  rw [isDigit, Bool.and_eq_true, decide_eq_true_eq, decide_eq_true_eq]
  exact Iff.rfl

/-- A character that is not a digit differs from every digit. -/
theorem isDigit_ne {c d : Char} (hc : isDigit c = true) (hd : isDigit d = false) : c ≠ d := by
  rintro rfl
  exact absurd (hc.symm.trans hd) (by decide)

/-- A decimal text has digits alone. -/
theorem isDigit_of_mem_decimal {n : Nat} {c : Char} (h : c ∈ decimal n) : isDigit c = true := by
  have hdigit : c.isDigit = true := Nat.isDigit_of_mem_toDigits (by decide) (by decide) h
  rw [Char.isDigit, Bool.and_eq_true, decide_eq_true_eq, decide_eq_true_eq] at hdigit
  exact (isDigit_iff c).mpr hdigit

/-- No number is written without any digit. -/
theorem decimal_ne_nil (n : Nat) : decimal n ≠ [] := Nat.toDigits_ne_nil

/-- A decimal text begins with a digit. -/
theorem decimal_eq_cons (n : Nat) : ∃ c rest, decimal n = c :: rest ∧ isDigit c = true := by
  obtain ⟨c, rest, hdigits⟩ := List.exists_cons_of_ne_nil (decimal_ne_nil n)
  exact ⟨c, rest, hdigits, isDigit_of_mem_decimal (n := n) (hdigits ▸ List.mem_cons_self)⟩

/-- What begins with any other character is not a decimal text. -/
theorem decimal_ne_cons {c : Char} (hc : isDigit c = false) (n : Nat) (rest : List Char) :
    decimal n ≠ c :: rest := by
  obtain ⟨d, others, hdigits, hd⟩ := decimal_eq_cons n
  rw [hdigits]
  exact fun h => isDigit_ne hd hc (List.cons.inj h).1

/-- A decimal digit has its value in every base from ten on, so decimal texts may be read as part of
hexadecimal ones. -/
theorem digitValue?_of_isDigit {base : Nat} (hbase : 10 ≤ base) {c : Char} (h : isDigit c = true) :
    digitValue? base c = some (c.toNat - '0'.toNat) := by
  have hrange : '0' ≤ c ∧ c ≤ '9' := by
    simpa only [isDigit, Bool.and_eq_true, decide_eq_true_eq] using h
  have hsmall : c.toNat - '0'.toNat < base := by
    have hle := ((isDigit_iff c).mp h).2
    have hzero : '0'.toNat = 48 := rfl
    omega
  rw [digitValue?, if_pos hrange, Option.filter_some, if_pos (by simpa using hsmall)]

/-! ## Numerals -/

/-- A run of decimal digits stands for its positional value, behind whatever
has been read before. -/
theorem readNaturalFrom?_digits (digits : List Char) (h : ∀ c ∈ digits, isDigit c = true) :
    ∀ read, readNaturalFrom? 10 read digits = some (Nat.ofDigitChars 10 digits read) := by
  induction digits with
  | nil => intro read; rfl
  | cons c rest ih =>
    intro read
    simp only [readNaturalFrom?, digitValue?_of_isDigit (Nat.le_refl 10) (h c List.mem_cons_self)]
    rw [ih (fun x hx => h x (List.mem_cons_of_mem c hx)), Nat.mul_comm read 10]
    rfl

/-- **The decimal text of a number reads back as the number.** -/
theorem readNatural?_decimal (n : Nat) : readNatural? 10 (decimal n) = some n := by
  have hread := readNaturalFrom?_digits (decimal n) (fun c hc => isDigit_of_mem_decimal hc) 0
  rw [decimal, Nat.ofDigitChars_ten_toDigits] at hread
  rw [readNatural?.eq_def]
  split
  · rename_i hnil
    exact absurd hnil (decimal_ne_nil n)
  · exact hread

/-- Different numbers have different decimal texts. Ordinals that are written as keys are kept apart
by this. -/
theorem decimal_injective {m n : Nat} (h : decimal m = decimal n) : m = n := by
  have hread := readNatural?_decimal m
  rw [h, readNatural?_decimal n] at hread
  exact (Option.some.inj hread).symm

/-- The value that a decimal text is given without any check is that of the number as well. -/
theorem decimalValue_decimal (n : Nat) : decimalValue (decimal n) = n := by
  have hfold : ∀ (digits : List Char) (read : Nat),
      digits.foldl (fun read c => read * 10 + (c.toNat - '0'.toNat)) read =
        Nat.ofDigitChars 10 digits read := by
    -- both ways of reading fold the digits, with the factors the other way round
    intro digits
    induction digits with
    | nil => intro read; rfl
    | cons c rest ih =>
      intro read
      rw [List.foldl_cons, ih, Nat.mul_comm read 10]
      rfl
  rw [decimalValue, hfold, decimal, Nat.ofDigitChars_ten_toDigits]

/-- Only zero is written with a zero in front, so no decimal text is mistaken for a padded or an
octal one. -/
theorem eq_zero_of_decimal (n : Nat) {rest : List Char} (h : decimal n = '0' :: rest) : n = 0 := by
  induction n using Nat.strongRecOn generalizing rest with
  | ind n ih =>
    rw [decimal, Nat.toDigits_eq_if (by decide)] at h
    split at h
    · -- a single digit
      rename_i hlt
      have hsmall : ∀ d < 10, Nat.digitChar d = '0' → d = 0 := by decide
      exact hsmall n hlt (List.cons.inj h).1
    -- the first digit is that of the number without its last one, which is zero by induction
    · rename_i hge
      obtain ⟨c, others, hfront⟩ := List.exists_cons_of_ne_nil (decimal_ne_nil (n / 10))
      rw [show Nat.toDigits 10 (n / 10) = c :: others from hfront] at h
      have hc : c = '0' := (List.cons.inj h).1
      have hzero := ih (n / 10) (by omega) (hc ▸ hfront)
      omega

/-! ## Values of runs of digits -/

/-- Digits that follow move those in front up by their number. -/
theorem decimalValue_append (xs ys : List Char) :
    decimalValue (xs ++ ys) = decimalValue xs * Nat.pow 10 ys.length + decimalValue ys := by
  -- what has been read before moves up by the digits that follow
  have hfold : ∀ (digits : List Char) (read : Nat),
      digits.foldl (fun read c => read * 10 + (c.toNat - '0'.toNat)) read =
        read * Nat.pow 10 digits.length + decimalValue digits := by
    intro digits
    induction digits with
    | nil => intro read; exact (Nat.mul_one read).symm
    | cons c rest ih =>
      intro read
      have hpow : Nat.pow 10 (rest.length + 1) = 10 * Nat.pow 10 rest.length := Nat.pow_succ'
      rw [decimalValue, List.foldl_cons, List.foldl_cons, ih, ih (0 * 10 + _), List.length_cons,
        hpow, Nat.zero_mul, Nat.zero_add, Nat.add_mul, Nat.mul_assoc, Nat.add_assoc]
  rw [decimalValue, List.foldl_append, hfold ys]
  rfl

/-- A run of zeros has the value zero. -/
theorem decimalValue_zeros (k : Nat) : decimalValue (List.replicate k '0') = 0 := by
  induction k with
  | zero => rfl
  | succ k ih =>
    rw [List.replicate_succ', decimalValue_append, ih, Nat.zero_mul]
    rfl

/-- Digits are fewer than the power of ten with their number. -/
theorem decimalValue_lt {digits : List Char} (h : ∀ c ∈ digits, isDigit c = true) :
    decimalValue digits < Nat.pow 10 digits.length := by
  induction digits with
  | nil => decide
  | cons c rest ih =>
    obtain ⟨hc, hrest⟩ := List.forall_mem_cons.mp h
    -- the first digit counts for at most nine times the power of the rest
    have hdigit : decimalValue [c] ≤ 9 := by
      have hle := ((isDigit_iff c).mp hc).2
      have hvalue : decimalValue [c] = 0 * 10 + (c.toNat - 48) := rfl
      omega
    have hpow : Nat.pow 10 (rest.length + 1) = 10 * Nat.pow 10 rest.length := Nat.pow_succ'
    have hfront := Nat.mul_le_mul_right (Nat.pow 10 rest.length) hdigit
    have hback := ih hrest
    rw [← List.singleton_append, decimalValue_append, List.length_append, List.length_singleton,
      Nat.add_comm 1, hpow]
    omega

/-! ## Hexadecimal digits -/

/-- A hexadecimal digit that is written is read with its value. -/
theorem digitValue?_upperHexDigit : ∀ d < 16, digitValue? 16 (upperHexDigit d) = some d := by
  decide

/-- The hexadecimal text of a number has hexadecimal digits alone. -/
theorem exists_of_mem_upperHex {width n : Nat} {c : Char} (h : c ∈ upperHex width n) :
    ∃ d < 16, c = upperHexDigit d := by
  induction width generalizing n with
  | zero => exact nomatch h
  | succ width ih =>
    rw [upperHex, List.mem_append, List.mem_singleton] at h
    rcases h with h | rfl
    · exact ih h
    · exact ⟨n % 16, Nat.mod_lt n (by decide), rfl⟩

/-- A hexadecimal text has exactly the width that is asked for. -/
theorem length_upperHex (width n : Nat) : (upperHex width n).length = width := by
  induction width generalizing n with
  | zero => rfl
  | succ width ih => rw [upperHex, List.length_append, ih, List.length_singleton]

/-- Reading two runs of digits is reading the second one behind the value of the first. -/
theorem readNaturalFrom?_append (base : Nat) (xs ys : List Char) (read : Nat) :
    readNaturalFrom? base read (xs ++ ys) =
      (readNaturalFrom? base read xs).bind fun n => readNaturalFrom? base n ys := by
  induction xs generalizing read with
  | nil => rfl
  | cons c rest ih =>
    rw [List.cons_append, readNaturalFrom?, readNaturalFrom?]
    cases digitValue? base c with
    | none => rfl
    | some d => exact ih _

/-- The last digits of a number are read as the number modulo their count. -/
theorem readNaturalFrom?_upperHex (width n read : Nat) :
    readNaturalFrom? 16 read (upperHex width n) =
      some (read * Nat.pow 16 width + n % Nat.pow 16 width) := by
  induction width generalizing n with
  | zero => simp [upperHex, readNaturalFrom?, Nat.mod_one]
  | succ width ih =>
    rw [upperHex, readNaturalFrom?_append, ih, Option.bind_some, readNaturalFrom?,
      digitValue?_upperHexDigit _ (Nat.mod_lt n (by decide))]
    -- the last digit is the number modulo sixteen, and the digits in front are those of the
    -- quotient
    have hpow : Nat.pow 16 (width + 1) = 16 * Nat.pow 16 width := Nat.mul_comm _ 16
    have hsplit : n % Nat.pow 16 (width + 1) = n % 16 + 16 * (n / 16 % Nat.pow 16 width) := by
      rw [hpow, Nat.mod_mul]
    rw [hsplit, hpow, Nat.mul_comm 16, ← Nat.mul_assoc]
    simp only [readNaturalFrom?]
    congr 1
    omega

/-- A number that has its digits at all is read back from them. -/
theorem readNatural?_upperHex {width n : Nat} (hwidth : 0 < width) (h : n < Nat.pow 16 width) :
    readNatural? 16 (upperHex width n) = some n := by
  have hread := readNaturalFrom?_upperHex width n 0
  rw [Nat.mod_eq_of_lt h, Nat.zero_mul, Nat.zero_add] at hread
  rw [readNatural?.eq_def]
  split
  · rename_i hnil
    cases width with
    | zero => exact absurd hwidth (Nat.lt_irrefl 0)
    | succ width => simp [upperHex] at hnil
  · exact hread

end ModelGraph.Text
