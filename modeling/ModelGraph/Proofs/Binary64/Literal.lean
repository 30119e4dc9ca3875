import ModelGraph.Proofs.Binary64.Shortest
import ModelGraph.Proofs.Binary64.Text

/-!
# Texts of numbers read back

Every layout of a decimal is a literal with the value of the decimal: with zeros in front of the
digits or behind them, with a point among them, or with an exponent. Since the decimal is nearest to
the number that is written, the literal is read as this number.

- `Spells`: a text is a literal with the value of a decimal.
- `positional_spells`, `scientific_spells`: both layouts.
- `readLiteral?_text`: the text of a finite number is read as the number.
-/

namespace ModelGraph.Binary64

/-! ## Literals -/

/-- A text without a sign is a literal whose digits and exponent have the value of a decimal.
Layouts differ in where the point stands and how many zeros there are, and none of this matters to
the value. -/
def Spells (s : List Char) (d : Decimal) : Prop :=
  ∃ (whole fraction : List Char) (exponent : Int),
    (∀ negative, readMagnitude? negative s = some ⟨negative, whole, fraction, exponent⟩) ∧
    (∀ c ∈ whole ++ fraction, Text.isDigit c = true) ∧
    (Text.decimalValue (whole ++ fraction) : ℚ) * 10 ^ (exponent - fraction.length) = d.value

/-- The text does not go on with a digit. -/
def EndsDigits (s : List Char) : Prop := s.head?.all (fun c => !Text.isDigit c) = true

/-- A run of digits is taken as a whole. -/
theorem span_digits {digits rest : List Char} (hdigits : ∀ c ∈ digits, Text.isDigit c = true)
    (hrest : EndsDigits rest) : (digits ++ rest).takeWhile Text.isDigit = digits ∧
      (digits ++ rest).dropWhile Text.isDigit = rest := by
  rw [List.takeWhile_append_of_pos hdigits, List.dropWhile_append_of_pos hdigits]
  cases rest with
  | nil => exact ⟨List.append_nil digits, rfl⟩
  -- the character behind the digits is none, so the run ends there
  | cons c others =>
    have hc : ¬ Text.isDigit c = true := by simpa [EndsDigits] using hrest
    rw [List.takeWhile_cons_of_neg hc, List.dropWhile_cons_of_neg hc, List.append_nil]
    exact ⟨rfl, rfl⟩

section Magnitude

variable {whole fraction rest : List Char} {exponent : Int}

/-- Digits with a point among them and an exponent behind them. -/
theorem readMagnitude?_point (hwhole : ∀ c ∈ whole, Text.isDigit c = true) (hsome : whole ≠ [])
    (hfraction : ∀ c ∈ fraction, Text.isDigit c = true) (hrest : EndsDigits rest)
    (hexponent : readExponent? rest = some exponent) (negative : Bool) :
    readMagnitude? negative (whole ++ '.' :: (fraction ++ rest)) =
      some ⟨negative, whole, fraction, exponent⟩ := by
  have hpoint : EndsDigits ('.' :: (fraction ++ rest)) := by simp [EndsDigits]; decide
  obtain ⟨htake, hdrop⟩ := span_digits hwhole hpoint
  obtain ⟨htake', hdrop'⟩ := span_digits hfraction hrest
  simp only [readMagnitude?, htake, hdrop, htake', hdrop', hexponent]
  rw [List.isEmpty_eq_false_iff.mpr hsome]
  rfl

/-- Digits without a point and an exponent behind them. -/
theorem readMagnitude?_whole (hwhole : ∀ c ∈ whole, Text.isDigit c = true) (hsome : whole ≠ [])
    (hrest : EndsDigits rest) (hpoint : rest.head? ≠ some '.')
    (hexponent : readExponent? rest = some exponent) (negative : Bool) :
    readMagnitude? negative (whole ++ rest) = some ⟨negative, whole, [], exponent⟩ := by
  obtain ⟨htake, hdrop⟩ := span_digits hwhole hrest
  -- behind the digits the exponent begins or the text ends, and neither is a point
  cases rest with
  | nil =>
    rw [List.append_nil] at htake hdrop ⊢
    simp [readMagnitude?, htake, hdrop, hexponent, hsome]
  | cons c others =>
    have hc : c ≠ '.' := by simpa using hpoint
    simp [readMagnitude?, htake, hdrop, hexponent, hsome, hc]

end Magnitude

/-- The exponent behind its mark is read as the integer that was written, with a plus sign in front
of it or without one. -/
theorem readExponent?_decimalInt (plusSign : Bool) (exponent : Int) :
    readExponent? ('e' :: ((if plusSign && decide (0 ≤ exponent) then ['+'] else []) ++
      Text.decimalInt exponent)) = some exponent := by
  have hplus : ∀ n, readExponent? ('e' :: '+' :: Text.decimal n) = some (n : Int) := fun n => by
    simp [readExponent?, Text.readNatural?_decimal]
  have hminus : ∀ n, readExponent? ('e' :: '-' :: Text.decimal n) = some (-n : Int) := fun n => by
    simp [readExponent?, Text.readNatural?_decimal]
  have hbare : ∀ n, readExponent? ('e' :: Text.decimal n) = some (n : Int) := fun n => by
    unfold readExponent?
    dsimp only
    rw [if_pos (.inl rfl)]
    -- a digit comes first, and it is none of the signs
    split
    · exact absurd ‹_› (Text.decimal_ne_cons (by decide) n _)
    · exact absurd ‹_› (Text.decimal_ne_cons (by decide) n _)
    · rw [Text.readNatural?_decimal]
      rfl
  rw [Text.decimalInt]
  by_cases hsign : exponent < 0
  · have hpositive : decide (0 ≤ exponent) = false := decide_eq_false (by omega)
    rw [hpositive, Bool.and_false, if_neg Bool.false_ne_true, if_pos hsign, List.nil_append, hminus]
    congr 1
    omega
  · have hvalue : ((exponent.natAbs : Nat) : Int) = exponent := by omega
    rw [if_neg hsign]
    split
    · exact (hplus _).trans (congrArg some hvalue)
    · exact (hbare _).trans (congrArg some hvalue)

/-! ## Layouts -/

section Spells

variable {whole fraction rest : List Char} {exponent : Int} {d : Decimal}

/-- A literal spells a decimal if its digits are those of the decimal with zeros behind them, and
its exponent makes up for the zeros and for the digits behind the point. -/
theorem spells_of_read {s : List Char} (zeros : Nat)
    (hread : ∀ negative, readMagnitude? negative s = some ⟨negative, whole, fraction, exponent⟩)
    (hdigits : ∀ c ∈ whole ++ fraction, Text.isDigit c = true)
    (hvalue : Text.decimalValue (whole ++ fraction) = d.digits * 10 ^ zeros)
    (hscale : exponent - fraction.length = d.exponent - zeros) : Spells s d := by
  refine ⟨whole, fraction, exponent, hread, hdigits, ?_⟩
  have hvalue' : (Text.decimalValue (whole ++ fraction) : ℚ) = d.digits * 10 ^ zeros := by
    exact_mod_cast hvalue
  rw [hvalue', hscale, Decimal.value, mul_assoc, ← zpow_natCast, ← zpow_add₀ (by norm_num)]
  congr 2
  omega

/-- The same for a literal with a point, which all layouts but one have. -/
theorem spells_point (zeros : Nat) (hdigits : ∀ c ∈ whole ++ fraction, Text.isDigit c = true)
    (hsome : whole ≠ []) (hrest : EndsDigits rest) (hexponent : readExponent? rest = some exponent)
    (hvalue : Text.decimalValue (whole ++ fraction) = d.digits * 10 ^ zeros)
    (hscale : exponent - fraction.length = d.exponent - zeros) :
    Spells (whole ++ '.' :: (fraction ++ rest)) d := by
  refine spells_of_read zeros ?_ hdigits hvalue hscale
  exact readMagnitude?_point (fun c hc => hdigits c (List.mem_append_left _ hc)) hsome
    (fun c hc => hdigits c (List.mem_append_right _ hc)) hrest hexponent

end Spells

theorem isDigit_of_mem_zeros {k : Nat} {c : Char} (h : c ∈ List.replicate k '0') :
    Text.isDigit c = true := by
  rw [List.eq_of_mem_replicate h]
  rfl

section Point

variable {digits : List Char} {d : Decimal} {k : Nat}

/-- Zeros between the point and the digits, as a decimal below one tenth has them. They do not
change what the digits stand for, and the digits behind the point are as many more. -/
theorem spells_leadingZeros (hdigits : ∀ c ∈ digits, Text.isDigit c = true)
    (hvalue : Text.decimalValue digits = d.digits) (hk : d.exponent + digits.length = -k) :
    Spells (['0'] ++ '.' :: (List.replicate k '0' ++ digits)) d := by
  have hspells : Spells (['0'] ++ '.' :: ((List.replicate k '0' ++ digits) ++ [])) d := by
    refine spells_point 0 ?_ (List.cons_ne_nil _ _) rfl rfl ?_ ?_
    · refine List.forall_mem_cons.mpr ⟨rfl, fun c hc => ?_⟩
      change c ∈ List.replicate k '0' ++ digits at hc
      exact (List.mem_append.mp hc).elim isDigit_of_mem_zeros (hdigits c)
    · -- zeros in front do not count
      rw [Text.decimalValue_append, Text.decimalValue_append, Text.decimalValue_zeros, hvalue]
      change 0 * _ + (0 * _ + _) = _
      omega
    · rw [List.length_append, List.length_replicate]
      omega
  rwa [List.append_nil] at hspells

/-- Zeros between the digits and the point, and one behind it, as a whole number has them. Each of
them stands for one more power of ten. -/
theorem spells_trailingZeros (hdigits : ∀ c ∈ digits, Text.isDigit c = true) (hsome : digits ≠ [])
    (hvalue : Text.decimalValue digits = d.digits) (hk : d.exponent = k) :
    Spells ((digits ++ List.replicate k '0') ++ '.' :: ['0']) d := by
  have hspells : Spells ((digits ++ List.replicate k '0') ++ '.' :: (['0'] ++ [])) d := by
    refine spells_point (k + 1) ?_ (by simp [hsome]) rfl rfl ?_ ?_
    · intro c hc
      rcases List.mem_append.mp hc with hc | hc
      · exact (List.mem_append.mp hc).elim (hdigits c) isDigit_of_mem_zeros
      · rw [List.mem_singleton.mp hc]
        rfl
    · -- every zero behind the digits stands for a power of ten, the one behind the point too
      rw [Text.decimalValue_append, Text.decimalValue_append, Text.decimalValue_zeros, hvalue,
        List.length_replicate, Nat.pow_succ, ← Nat.mul_assoc]
      rfl
    · rw [List.length_singleton]
      omega
  rwa [List.append_nil] at hspells

/-- The point among the digits. -/
theorem spells_dividedDigits (hdigits : ∀ c ∈ digits, Text.isDigit c = true) (hsome : digits ≠ [])
    (hvalue : Text.decimalValue digits = d.digits) (hpos : k ≠ 0)
    (hle : k ≤ digits.length) (hk : d.exponent + digits.length = k) :
    Spells (digits.take k ++ '.' :: digits.drop k) d := by
  have hspells : Spells (digits.take k ++ '.' :: (digits.drop k ++ [])) d := by
    refine spells_point 0 ?_ (by simp [hsome, hpos]) rfl rfl ?_ ?_
    · rwa [List.take_append_drop]
    · rw [List.take_append_drop, hvalue, Nat.pow_zero, Nat.mul_one]
    · rw [List.length_drop]
      omega
  rwa [List.append_nil] at hspells

end Point

/-- Digits around a point spell a decimal, wherever the point stands. Zeros fill up the places
between the point and the digits. -/
theorem positional_spells (d : Decimal) :
    Spells (positional true (Text.decimal d.digits)
      (d.exponent + (Text.decimal d.digits).length)) d := by
  have hdigits : ∀ c ∈ Text.decimal d.digits, Text.isDigit c = true := fun _ =>
    Text.isDigit_of_mem_decimal
  have hvalue := Text.decimalValue_decimal d.digits
  have hsome := Text.decimal_ne_nil d.digits
  generalize Text.decimal d.digits = digits at hdigits hvalue hsome ⊢
  unfold positional
  split
  · -- the point stands in front of all digits, behind all of them or among them
    exact spells_leadingZeros hdigits hvalue (by omega)
  · split
    · exact spells_trailingZeros hdigits hsome hvalue (by omega)
    · exact spells_dividedDigits hdigits hsome hvalue (by omega) (by omega) (by omega)

/-- Digits with a point after the first of them and an exponent spell a decimal. A single digit has
no point, so this case is read as a whole part alone. -/
theorem scientific_spells (plusSign : Bool) (d : Decimal) :
    Spells (scientific plusSign (Text.decimal d.digits)
      (d.exponent + (Text.decimal d.digits).length - 1)) d := by
  have hdigits : ∀ c ∈ Text.decimal d.digits, Text.isDigit c = true := fun _ =>
    Text.isDigit_of_mem_decimal
  have hvalue := Text.decimalValue_decimal d.digits
  obtain ⟨first, others, hcons⟩ := List.exists_cons_of_ne_nil (Text.decimal_ne_nil d.digits)
  rw [hcons] at hdigits hvalue ⊢
  have hexponent := readExponent?_decimalInt plusSign
    (d.exponent + (first :: others).length - 1)
  unfold scientific
  dsimp only
  rw [List.append_assoc]
  cases others with
  | nil =>
    -- a single digit has no point behind it
    have hmark : ∀ s : List Char, ('e' :: s).head? ≠ some '.' := fun _ => by simp
    have hread := readMagnitude?_whole hdigits (List.cons_ne_nil _ _) (by rfl) (hmark _) hexponent
    exact spells_of_read 0 hread hdigits (by rw [List.append_nil, hvalue]; omega) (by simp)
  | cons next rest =>
    exact spells_point 0 hdigits (List.cons_ne_nil first []) rfl hexponent
      (by rw [List.singleton_append, hvalue, Nat.pow_zero, Nat.mul_one])
      (by simp only [List.length_cons]; omega)

/-- A layout that keeps a point spells the decimal that it lays out. -/
theorem Layout.decimal_spells {layout : Layout} (hpoint : layout.wholePoint = true) (d : Decimal) :
    Spells (layout.decimal d) d := by
  have hchoice : ∀ isPositional : Bool, Spells (if isPositional then
      positional true (Text.decimal d.digits) (d.exponent + (Text.decimal d.digits).length)
    else scientific layout.plusSign (Text.decimal d.digits)
      (d.exponent + (Text.decimal d.digits).length - 1)) d := fun isPositional => by
    cases isPositional with
    | true => exact positional_spells d
    | false => exact scientific_spells layout.plusSign d
  -- both notations spell the decimal, so the bounds do not matter
  unfold Layout.decimal
  rw [hpoint]
  exact hchoice _

/-! ## Values -/

section Values

variable {significand : Nat} {exponent : Int} {s : List Char} {d : Decimal}

/-- A literal that spells a decimal is read as the value that the decimal is nearest to. -/
theorem Spells.value (h : Spells s d) (hpos : 0 < significand) (negative : Bool)
    (hcanonical : Canonical (finite negative significand exponent))
    (hrounds : Rounds significand exponent d.value) :
    (readMagnitude? negative s).map Literal.value =
      some (finite negative significand exponent) := by
  obtain ⟨whole, fraction, scale, hread, hdigits, hvalue⟩ := h
  rw [hread, Option.map_some, Literal.value]
  dsimp only
  rw [← hvalue] at hrounds
  rw [ofDecimal_eq hcanonical hpos (Text.decimalValue_lt hdigits) hrounds]

/-- The sign of a literal is read by itself. -/
theorem readLiteral?_signed (h : Unsigned s) (negative : Bool) :
    readLiteral? ((if negative then ['-'] else []) ++ s) = readMagnitude? negative s := by
  cases negative with
  | true => rfl
  | false =>
    -- without a sign there is a digit in front, which is none of the two signs
    obtain ⟨c, rest, rfl, hc⟩ := h.exists_cons
    unfold readLiteral?
    split
    · rename_i heq
      exact absurd (List.cons.inj heq).1 (Text.isDigit_ne hc (by decide))
    · rename_i heq
      exact absurd (List.cons.inj heq).1 (Text.isDigit_ne hc (by decide))
    · rfl

end Values

/-- **The text of a finite number is read as the number**, in every layout that keeps a point. The
digits that are written are the shortest ones, and these are nearest to the number. -/
theorem readLiteral?_text {layout : Layout} (hpoint : layout.wholePoint = true) {negative : Bool}
    {significand : Nat} {exponent : Int}
    (hcanonical : Canonical (finite negative significand exponent)) :
    (readLiteral? (layout.text (finite negative significand exponent))).map Literal.value =
      some (finite negative significand exponent) := by
  unfold Layout.text
  dsimp only
  -- zero is written as it is, and its only form has the least exponent
  by_cases hzero : significand = 0
  · subst hzero
    have hleast : exponent = leastExponent :=
      hcanonical.2.2.2.resolve_left (by decide)
    rw [if_pos rfl, hpoint, if_pos rfl, hleast]
    cases negative <;> decide
  · rw [if_neg hzero, readLiteral?_signed (layout.decimal_shape _).1]
    -- the digits spell the shortest decimal, which is nearest to the number
    have hpos := Nat.pos_of_ne_zero hzero
    exact (Layout.decimal_spells hpoint _).value hpos negative hcanonical
      (shortest_rounds layout.tie hpos exponent)

end ModelGraph.Binary64
