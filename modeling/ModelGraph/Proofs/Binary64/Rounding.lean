import Mathlib.Algebra.Order.Field.Power
import Mathlib.Algebra.Order.Field.Rat
import Mathlib.Tactic.FieldSimp
import Mathlib.Tactic.Linarith
import Mathlib.Tactic.Ring
import ModelGraph.Binary64.Basic

/-!
# Rounding to the nearest value

A quotient becomes the value nearest to it: a quotient between the middles to the two neighbours
of a value becomes this value, and so does a middle if the significand is even. Quotients are
compared as rational numbers here, in quarters of the last place of the value.

- `roundToEven_eq`, `exponentOf_spec`: the significand and the exponent of a quotient.
- `Rounds`: the quotients that a value stands for.
- `ofRatio_eq`, `ofDecimal_eq`: a quotient and a decimal become the value that stands for them.
-/

namespace ModelGraph.Binary64

/-! ## Powers -/

/-- Powers of two are positive. -/
theorem two_zpow_pos (exponent : Int) : (0 : ℚ) < 2 ^ exponent := zpow_pos (by norm_num) exponent

/-- The next power of two is twice as large. -/
theorem two_zpow_succ (exponent : Int) : (2 : ℚ) ^ (exponent + 1) = 2 * 2 ^ exponent := by
  rw [zpow_add_one₀ (by norm_num), mul_comm]

/-- A unit in the next smaller place has two quarters of a unit. -/
theorem two_zpow_halves (exponent : Int) : (2 : ℚ) ^ (exponent - 1) = 2 * 2 ^ (exponent - 2) := by
  rw [← two_zpow_succ]
  congr 1
  omega

/-- A unit has four quarters. -/
theorem two_zpow_quarters (exponent : Int) : (2 : ℚ) ^ exponent = 4 * 2 ^ (exponent - 2) := by
  have hone : (2 : ℚ) ^ exponent = 2 * 2 ^ (exponent - 1) := by
    rw [← two_zpow_succ, Int.sub_add_cancel]
  rw [hone, two_zpow_halves]
  ring

/-- Powers of two are in the order of their exponents. -/
theorem lt_of_two_zpow_lt {i j : Int} (h : (2 : ℚ) ^ i < 2 ^ j) : i < j :=
  (zpow_lt_zpow_iff_right₀ (by norm_num)).mp h

/-- A power with its denominator taken away. -/
theorem zpow_mul_toNat {b : ℚ} (hb : b ≠ 0) (i : Int) : b ^ i * b ^ (-i).toNat = b ^ i.toNat := by
  rw [← zpow_natCast, ← zpow_natCast, ← zpow_add₀ hb]
  congr 1
  omega

/-- An exponent that is not negative is a natural number. -/
theorem zpow_of_nonneg (b : ℚ) {i : Int} (h : 0 ≤ i) : b ^ i = b ^ i.toNat := by
  rw [← zpow_natCast, Int.toNat_of_nonneg h]

/-- A negative exponent is one of the inverse. -/
theorem zpow_of_neg (b : ℚ) {i : Int} (h : ¬ 0 ≤ i) : b ^ i = (b ^ (-i).toNat)⁻¹ := by
  rw [← zpow_natCast, Int.toNat_of_nonneg (by omega), zpow_neg, inv_inv]

/-- A multiple of a power is the same as a rational number. -/
theorem cast_mul_pow (a b k : Nat) : ((a * Nat.pow b k : Nat) : ℚ) = a * (b : ℚ) ^ k :=
  (Nat.cast_mul _ _).trans (congrArg _ (Nat.cast_pow b k))

/-! ## Significands -/

/-- Rounding by the bounds between natural numbers. A number within a half of the quotient is what
rounding gives, if ties go to it only when it is even. -/
theorem roundToEven_of_bounds {num den k : Nat} (hden : 0 < den)
    (hlow : 2 * (k * den) ≤ 2 * num + den) (hhigh : 2 * num ≤ 2 * (k * den) + den)
    (hodd : k % 2 = 1 → 2 * (k * den) < 2 * num + den ∧ 2 * num < 2 * (k * den) + den) :
    roundToEven num den = k := by
  have hdiv : num = num / den * den + num % den := by rw [Nat.mul_comm, Nat.div_add_mod]
  have hrest : num % den < den := Nat.mod_lt num hden
  rw [roundToEven]
  generalize num / den = quotient at hdiv ⊢
  generalize num % den = rest at hdiv hrest ⊢
  -- the number is the quotient cut off, or the next one
  have hle : quotient ≤ k := by
    by_contra hlt
    have := Nat.mul_le_mul_right den (Nat.lt_of_not_le hlt)
    rw [Nat.succ_mul] at this
    omega
  have hge : k ≤ quotient + 1 := by
    by_contra hlt
    have := Nat.mul_le_mul_right den (Nat.lt_of_not_le hlt)
    rw [Nat.succ_mul, Nat.succ_mul] at this
    omega
  -- in each case twice the rest says which of the two is nearer, and equality leaves the even one
  rcases Nat.eq_or_lt_of_le hle with heq | hlt
  · subst heq
    split
    · rfl
    · split
      · omega
      · rw [if_pos]
        omega
  · have hnext : k = quotient + 1 := by omega
    subst hnext
    rw [Nat.add_mul quotient 1 den, Nat.one_mul] at hlow hhigh hodd
    split
    · omega
    · split
      · rfl
      · rw [if_neg]
        omega

/-- A quotient is rounded to a number that is at most a half away from it, to
the even one of two. -/
theorem roundToEven_eq {num den k : Nat} (hden : 0 < den) (hlow : (k : ℚ) ≤ num / den + 1 / 2)
    (hhigh : (num / den : ℚ) ≤ k + 1 / 2)
    (hodd : k % 2 = 1 → (k : ℚ) < num / den + 1 / 2 ∧ (num / den : ℚ) < k + 1 / 2) :
    roundToEven num den = k := by
  have hden' : (0 : ℚ) < den := by exact_mod_cast hden
  -- the bounds are multiplied by twice the divisor, where they are about natural numbers
  refine roundToEven_of_bounds hden ?_ ?_ fun h => ?_
  · rw [← sub_le_iff_le_add, le_div_iff₀ hden'] at hlow
    exact_mod_cast (by linarith : (2 * (k * den) : ℚ) ≤ 2 * num + den)
  · rw [div_le_iff₀ hden'] at hhigh
    exact_mod_cast (by linarith : (2 * num : ℚ) ≤ 2 * (k * den) + den)
  · obtain ⟨hleft, hright⟩ := hodd h
    rw [← sub_lt_iff_lt_add, lt_div_iff₀ hden'] at hleft
    rw [div_lt_iff₀ hden'] at hright
    exact ⟨by exact_mod_cast (by linarith : (2 * (k * den) : ℚ) < 2 * num + den),
      by exact_mod_cast (by linarith : (2 * num : ℚ) < 2 * (k * den) + den)⟩

/-! ## Exponents -/

/-- A quotient with a power of two taken out of it: what is left is a quotient of natural numbers
again, and its divisor is positive. -/
theorem scaleRatio_spec (num : Nat) {den : Nat} (hden : 0 < den) (exponent : Int) :
    0 < (scaleRatio num den exponent).2 ∧
      (num / den : ℚ) =
        (scaleRatio num den exponent).1 / (scaleRatio num den exponent).2 * 2 ^ exponent := by
  have hden' : (den : ℚ) ≠ 0 := by positivity
  unfold scaleRatio
  -- the power of two goes into the denominator or, turned around, into the numerator
  split
  · rename_i hsign
    refine ⟨Nat.mul_pos hden (Nat.pow_pos (by decide)), ?_⟩
    rw [cast_mul_pow, Nat.cast_ofNat, zpow_of_nonneg 2 hsign]
    field_simp
  · rename_i hsign
    refine ⟨hden, ?_⟩
    rw [cast_mul_pow, Nat.cast_ofNat, zpow_of_neg 2 hsign]
    field_simp

/-- A natural number lies between two powers of two. -/
theorem log2_bounds {n : Nat} (hn : 0 < n) :
    (2 : ℚ) ^ (n.log2 : Int) ≤ n ∧ (n : ℚ) < 2 ^ ((n.log2 : Int) + 1) := by
  have hlow : 2 ^ n.log2 ≤ n := Nat.log2_self_le (Nat.ne_of_gt hn)
  have hhigh : n < 2 ^ (n.log2 + 1) := Nat.lt_log2_self
  constructor
  · rw [zpow_natCast]
    exact_mod_cast hlow
  · rw [← Nat.cast_add_one, zpow_natCast]
    exact_mod_cast hhigh

/-- The first guess of the exponent is right or too large by one: the quotient has 52 or 53 bits in
units of the guess. -/
theorem guess_bounds {num den : Nat} (hnum : 0 < num) (hden : 0 < den) {guess : Int}
    (hguess : guess = num.log2 - den.log2 - 52) :
    (2 : ℚ) ^ 51 * 2 ^ guess < num / den ∧ (num : ℚ) / den < 2 ^ 53 * 2 ^ guess := by
  -- each logarithm is cut off by less than one, so their difference is off by less than one
  have hden' : (0 : ℚ) < den := by exact_mod_cast hden
  obtain ⟨hnumLow, hnumHigh⟩ := log2_bounds hnum
  obtain ⟨hdenLow, hdenHigh⟩ := log2_bounds hden
  constructor
  · rw [lt_div_iff₀ hden']
    calc (2 : ℚ) ^ 51 * 2 ^ guess * den
        < 2 ^ 51 * 2 ^ guess * 2 ^ ((den.log2 : Int) + 1) := by gcongr
      _ = 2 ^ (num.log2 : Int) := by
        rw [← zpow_natCast, ← zpow_add₀ (by norm_num), ← zpow_add₀ (by norm_num)]
        congr 1
        omega
      _ ≤ num := hnumLow
  · rw [div_lt_iff₀ hden']
    calc (num : ℚ) < 2 ^ ((num.log2 : Int) + 1) := hnumHigh
      _ = 2 ^ 53 * 2 ^ guess * 2 ^ (den.log2 : Int) := by
        rw [← zpow_natCast, ← zpow_add₀ (by norm_num), ← zpow_add₀ (by norm_num)]
        congr 1
        omega
      _ ≤ 2 ^ 53 * 2 ^ guess * den := by gcongr

/-- The exponent of a positive quotient: its significand has full width, unless the exponent would
be too small for that. The exponent of full width is given beside it, so that the two cases need not
be told apart where it makes no difference. -/
theorem exponentOf_spec {num den : Nat} (hnum : 0 < num) (hden : 0 < den) :
    ∃ exact, exponentOf num den = max exact leastExponent ∧
      (2 : ℚ) ^ 52 * 2 ^ exact ≤ num / den ∧ (num : ℚ) / den < 2 ^ 53 * 2 ^ exact := by
  obtain ⟨guess, hguess⟩ : ∃ guess : Int, guess = num.log2 - den.log2 - 52 := ⟨_, rfl⟩
  obtain ⟨hlow, hhigh⟩ := guess_bounds hnum hden hguess
  obtain ⟨hpos, hscaled⟩ := scaleRatio_spec num hden guess
  have hpos' : (0 : ℚ) < (scaleRatio num den guess).2 := by exact_mod_cast hpos
  -- whether the guess is too large shows in the quotient cut off
  have htest : (scaleRatio num den guess).1 / (scaleRatio num den guess).2 < significandLimit / 2 ↔
      (num : ℚ) / den < 2 ^ 52 * 2 ^ guess := by
    have hlimit : significandLimit / 2 = 2 ^ 52 := rfl
    rw [Nat.div_lt_iff_lt_mul hpos, hlimit, hscaled, mul_lt_mul_iff_left₀ (two_zpow_pos guess),
      div_lt_iff₀ hpos']
    exact_mod_cast Iff.rfl
  have hexponent : exponentOf num den = max (if (scaleRatio num den guess).1 /
      (scaleRatio num den guess).2 < significandLimit / 2 then guess - 1 else guess)
        leastExponent := by
    rw [hguess]
    rfl
  -- a guess that is too large is corrected by one, and a right one is kept
  refine ⟨_, hexponent, ?_⟩
  split
  · rename_i hsmall
    have hsucc := two_zpow_succ (guess - 1)
    rw [Int.sub_add_cancel] at hsucc
    have hbelow := htest.mp hsmall
    rw [hsucc] at hlow hbelow
    exact ⟨by linarith, by linarith⟩
  · rename_i hlarge
    exact ⟨not_lt.mp (mt htest.mpr hlarge), hhigh⟩

/-! ## Values -/

/-- Four times the significand of the middle to the next smaller value. The gap below a power of two
is half as wide as the gap above it, so middles are counted in quarters of a unit, which makes both
of them whole numbers. -/
def lowMiddle (significand : Nat) (exponent : Int) : Nat :=
  if significand = significandLimit / 2 ∧ leastExponent < exponent then 4 * significand - 1
  else 4 * significand - 2

/-- The quotients that are nearest to a value. The two middles are nearest to a value with an even
significand, which is how ties are decided. -/
structure Rounds (significand : Nat) (exponent : Int) (x : ℚ) : Prop where
  low : (lowMiddle significand exponent : ℚ) * 2 ^ (exponent - 2) ≤ x
  high : x ≤ (4 * significand + 2 : ℕ) * 2 ^ (exponent - 2)
  open_of_odd : significand % 2 = 1 →
    (lowMiddle significand exponent : ℚ) * 2 ^ (exponent - 2) < x ∧
      x < (4 * significand + 2 : ℕ) * 2 ^ (exponent - 2)

section Rounds

variable {negative : Bool} {significand num den : Nat} {exponent exact : Int} {x : ℚ}

/-- The middle below a value is at most half a unit away. -/
theorem four_mul_le_lowMiddle (significand : Nat) (exponent : Int) :
    4 * significand ≤ lowMiddle significand exponent + 2 := by
  rw [lowMiddle]
  split <;> omega

/-- In quarters of a unit the middle above a value has at most 55 bits. -/
theorem four_mul_lt (hcanonical : Canonical (finite negative significand exponent)) :
    ((4 * significand + 2 : ℕ) : ℚ) < 2 ^ 55 := by
  have hlimit : significandLimit = 2 ^ 53 := rfl
  have hsignificand : significand < significandLimit := hcanonical.1
  exact_mod_cast (show 4 * significand + 2 < 2 ^ 55 by omega)

/-- What is nearest to a positive value is neither too small nor too large for the format. So
neither the zero nor an infinity is taken for it. -/
theorem Rounds.bounds (h : Rounds significand exponent x)
    (hcanonical : Canonical (finite negative significand exponent)) (hpos : 0 < significand) :
    (2 : ℚ) ^ (-1075 : Int) ≤ x ∧ x < 2 ^ (1024 : Int) := by
  have hleast : -1074 ≤ exponent := hcanonical.2.1
  have hgreatest : exponent ≤ 971 := hcanonical.2.2.1
  have hunit := two_zpow_pos (exponent - 2)
  constructor
  · -- two quarters of the least unit are the least middle that there is
    have hmiddle : (2 : ℚ) ≤ lowMiddle significand exponent := by
      have := four_mul_le_lowMiddle significand exponent
      exact_mod_cast (show 2 ≤ lowMiddle significand exponent by omega)
    have hunit' : (2 : ℚ) ^ (-1076 : Int) ≤ 2 ^ (exponent - 2) :=
      zpow_le_zpow_right₀ (by norm_num) (by omega)
    calc (2 : ℚ) ^ (-1075 : Int) = 2 * 2 ^ (-1076 : Int) := by
          rw [← two_zpow_succ]
          congr 1
      _ ≤ lowMiddle significand exponent * 2 ^ (exponent - 2) := by gcongr
      _ ≤ x := h.low
  · -- no middle has more than 55 bits in quarters of the greatest unit
    have hunit' : (2 : ℚ) ^ (exponent - 2) ≤ 2 ^ (969 : Int) :=
      zpow_le_zpow_right₀ (by norm_num) (by omega)
    calc x ≤ (4 * significand + 2 : ℕ) * 2 ^ (exponent - 2) := h.high
      _ < 2 ^ 55 * 2 ^ (exponent - 2) := by
        have := four_mul_lt hcanonical
        gcongr
      _ ≤ 2 ^ 55 * 2 ^ (969 : Int) := by gcongr
      _ = 2 ^ (1024 : Int) := by
        rw [← zpow_natCast, ← zpow_add₀ (by norm_num)]
        congr 1

/-- A quotient of full width that is nearest to a value has no greater exponent. -/
theorem Rounds.exact_le (h : Rounds significand exponent x)
    (hcanonical : Canonical (finite negative significand exponent))
    (hwide : (2 : ℚ) ^ 52 * 2 ^ exact ≤ x) : exact ≤ exponent := by
  refine Int.lt_add_one_iff.mp (lt_of_two_zpow_lt ?_)
  -- no value of full width is more than the middle above the greatest significand
  rw [two_zpow_succ, two_zpow_quarters exponent]
  have hless := mul_lt_mul_of_pos_right (four_mul_lt hcanonical) (two_zpow_pos (exponent - 2))
  linarith [h.high]

/-- If the middle below a value has a certain width, the exponent of the quotient is not much
less. -/
theorem Rounds.lt_exact (h : Rounds significand exponent x) {width : ℚ}
    (hwidth : width ≤ lowMiddle significand exponent) (hwide : x < 2 ^ 53 * 2 ^ exact) :
    width * 2 ^ (exponent - 2) < 2 ^ 53 * 2 ^ exact :=
  (mul_le_mul_of_nonneg_right hwidth (two_zpow_pos _).le).trans_lt (h.low.trans_lt hwide)

/-- The exponent of a quotient that is nearest to a value: that of the value, or the one below it if
the value is a power of two and the quotient is less. In the second case the significand is rounded
up to a carry, which gives the exponent of the value after all. -/
theorem exponentOf_cases (hcanonical : Canonical (finite negative significand exponent))
    (hnum : 0 < num) (hden : 0 < den) (hrounds : Rounds significand exponent (num / den)) :
    exponentOf num den = exponent ∨
      exponentOf num den = exponent - 1 ∧ significand = significandLimit / 2 ∧
        lowMiddle significand exponent = 2 ^ 54 - 1 ∧
        (num / den : ℚ) < 2 ^ 52 * 2 ^ exponent := by
  obtain ⟨exact, hexact, hwideLow, hwideHigh⟩ := exponentOf_spec hnum hden
  have hle := hrounds.exact_le hcanonical hwideLow
  obtain ⟨-, hleast, -, hfull⟩ := hcanonical
  have hhalf : significandLimit / 2 = 2 ^ 52 := rfl
  rw [hexact]
  rcases Int.lt_or_eq_of_le hleast with hlt | heq
  · by_cases hpower : significand = significandLimit / 2
    · have hmiddle : lowMiddle significand exponent = 2 ^ 54 - 1 := by
        rw [lowMiddle, if_pos ⟨hpower, hlt⟩, hpower]
        rfl
      have hge : exponent - 2 < exact := by
        refine lt_of_two_zpow_lt ?_
        have hunit := two_zpow_pos (exponent - 2)
        linarith [hrounds.lt_exact (by rw [hmiddle]; norm_num : (2 ^ 54 - 1 : ℚ) ≤ _) hwideHigh]
      rcases Int.lt_or_eq_of_le hle with hbelow | hsame
      · -- the quotient lies in the narrow gap below the power of two
        have hone : exact = exponent - 1 := by omega
        rw [hone, two_zpow_halves] at hwideHigh
        rw [two_zpow_quarters]
        exact .inr ⟨by omega, hpower, hmiddle, by linarith⟩
      · exact .inl (by omega)
    · -- away from the powers of two the gap below is as wide as the one above
      have hmiddle : (2 ^ 54 + 2 : ℚ) ≤ lowMiddle significand exponent := by
        have hwidth := hfull.resolve_right (Int.ne_of_gt hlt)
        have := four_mul_le_lowMiddle significand exponent
        exact_mod_cast (show 2 ^ 54 + 2 ≤ lowMiddle significand exponent by omega)
      have hge : exponent - 1 < exact := by
        refine lt_of_two_zpow_lt ?_
        rw [two_zpow_halves]
        linarith [hrounds.lt_exact hmiddle hwideHigh, two_zpow_pos (exponent - 2)]
      exact .inl (by omega)
  · -- no exponent is less than the least one
    exact .inl (by omega)

/-- In units of its last place a quotient is rounded to the significand of its value. This is the
case in which the exponent has been found. -/
theorem Rounds.roundToEven_eq (hden : 0 < den)
    (h : Rounds significand exponent (num / den * 2 ^ exponent)) :
    roundToEven num den = significand := by
  -- the middles are halves away in units, except that the lower one may be nearer
  have hunit := two_zpow_pos (exponent - 2)
  have hmiddle : (4 * significand : ℚ) ≤ lowMiddle significand exponent + 2 := by
    exact_mod_cast four_mul_le_lowMiddle significand exponent
  obtain ⟨hlow, hhigh, hodd⟩ := h
  rw [two_zpow_quarters exponent] at hlow hhigh hodd
  push_cast at hhigh hodd
  refine Binary64.roundToEven_eq hden ?_ ?_ fun hsignificand => ?_
  · have := le_of_mul_le_mul_right (hlow.trans_eq (mul_assoc _ _ _).symm) hunit
    linarith
  · have := le_of_mul_le_mul_right ((mul_assoc _ _ _).trans_le hhigh) hunit
    linarith
  · obtain ⟨hleft, hright⟩ := hodd hsignificand
    have hleft' := lt_of_mul_lt_mul_right (hleft.trans_eq (mul_assoc _ _ _).symm) hunit.le
    have hright' := lt_of_mul_lt_mul_right ((mul_assoc _ _ _).trans_lt hright) hunit.le
    exact ⟨by linarith, by linarith⟩

/-- In units half as large a quotient just below a power of two is rounded to one bit more than a
significand has. -/
theorem Rounds.roundToEven_carry (hden : 0 < den)
    (h : Rounds significand exponent (num / den * 2 ^ (exponent - 1)))
    (hmiddle : lowMiddle significand exponent = 2 ^ 54 - 1)
    (hless : (num / den * 2 ^ (exponent - 1) : ℚ) < 2 ^ 52 * 2 ^ exponent) :
    roundToEven num den = significandLimit := by
  have hunit := two_zpow_pos (exponent - 2)
  have hlimit : ((significandLimit : ℕ) : ℚ) = 2 ^ 53 := by norm_num [significandLimit]
  have hlow := h.low
  rw [hmiddle, two_zpow_halves] at hlow
  rw [two_zpow_halves, two_zpow_quarters exponent, ← mul_assoc, ← mul_assoc] at hless
  push_cast at hlow
  -- the limit is even, so being at most a half away is enough
  refine Binary64.roundToEven_eq hden ?_ ?_ fun hodd => absurd hodd (by decide)
  · have := le_of_mul_le_mul_right (hlow.trans_eq (mul_assoc _ _ _).symm) hunit
    rw [hlimit]
    linarith
  · have := lt_of_mul_lt_mul_right hless hunit.le
    rw [hlimit]
    linarith

/-- **A positive value becomes itself from every quotient that is nearest to it.** Either the
exponent of the value is found, or the one below it, and then rounding up carries into the next one.
-/
theorem ofRatio_eq (hcanonical : Canonical (finite negative significand exponent))
    (hpos : 0 < significand) (hden : 0 < den)
    (hrounds : Rounds significand exponent (num / den)) :
    ofRatio negative num den = finite negative significand exponent := by
  -- a zero is not near enough to any positive value
  have hnum : 0 < num := by
    refine Nat.pos_of_ne_zero fun hzero => ?_
    have hlow := (hrounds.bounds hcanonical hpos).1
    rw [hzero, Nat.cast_zero, zero_div] at hlow
    exact absurd hlow (not_le.mpr (two_zpow_pos _))
  have hfits : ¬ greatestExponent < exponent := Int.not_lt.mpr hcanonical.2.2.1
  obtain ⟨hscaledPos, hscaled⟩ := scaleRatio_spec num hden (exponentOf num den)
  rw [ofRatio, if_neg (Nat.ne_of_gt hnum)]
  dsimp only
  -- with the exponent of the value the significand is rounded to that of the value
  rcases exponentOf_cases hcanonical hnum hden hrounds with hsame |
    ⟨hbelow, hpower, hmiddle, hless⟩
  · rw [hsame] at hscaledPos hscaled ⊢
    rw [hscaled] at hrounds
    rw [hrounds.roundToEven_eq hscaledPos, if_neg (Nat.ne_of_lt hcanonical.1)]
    exact if_neg hfits
  · -- the significand gets one bit too many, which goes into the exponent
    rw [hbelow] at hscaledPos hscaled ⊢
    rw [hscaled] at hrounds hless
    rw [hrounds.roundToEven_carry hscaledPos hmiddle hless, if_pos rfl, hpower, Int.sub_add_cancel]
    exact if_neg hfits

end Rounds

/-! ## Decimals -/

/-- Powers of ten that are out of the range of the format. -/
theorem two_zpow_lt_ten_zpow : (2 : ℚ) ^ (1024 : Int) < 10 ^ (400 : Int) ∧
    (10 : ℚ) ^ (-400 : Int) < 2 ^ (-1075 : Int) := by
  have hlarge : (2 : Nat) ^ 1024 < 10 ^ 400 := by decide +kernel
  have hsmall : (2 : Nat) ^ 1075 < 10 ^ 400 := by decide +kernel
  refine ⟨by exact_mod_cast hlarge, ?_⟩
  rw [zpow_neg, zpow_neg]
  refine inv_strictAnti₀ (two_zpow_pos 1075) ?_
  exact_mod_cast hsmall

/-- A decimal within the range of the format has an exponent for which no early exit is taken. The
bounds are those that every positive value keeps. -/
theorem scale_bounds {digits length : Nat} {scale : Int} (hlength : digits < 10 ^ length)
    (hlow : (2 : ℚ) ^ (-1075 : Int) ≤ digits * 10 ^ scale)
    (hhigh : (digits * 10 ^ scale : ℚ) < 2 ^ (1024 : Int)) :
    digits ≠ 0 ∧ ¬ 400 < scale ∧ ¬ scale + length < -400 := by
  have hscale : (0 : ℚ) < 10 ^ scale := zpow_pos (by norm_num) scale
  have hdigits : digits ≠ 0 := by
    rintro rfl
    rw [Nat.cast_zero, zero_mul] at hlow
    exact absurd hlow (not_le.mpr (two_zpow_pos _))
  refine ⟨hdigits, fun hlarge => ?_, fun hsmall => ?_⟩
  · -- even a single digit would be too large
    have hone : (1 : ℚ) ≤ digits := by exact_mod_cast Nat.one_le_iff_ne_zero.mpr hdigits
    have hpow : (10 : ℚ) ^ (400 : Int) ≤ 10 ^ scale :=
      zpow_le_zpow_right₀ (by norm_num) (Int.le_of_lt hlarge)
    refine absurd hhigh (not_lt.mpr (two_zpow_lt_ten_zpow.1.le.trans (hpow.trans ?_)))
    exact le_mul_of_one_le_left hscale.le hone
  · -- even digits that are all nines would be too small
    have hpow : (10 : ℚ) ^ (scale + length) ≤ 10 ^ (-400 : Int) :=
      zpow_le_zpow_right₀ (by norm_num) (Int.le_of_lt hsmall)
    have hdigits' : (digits : ℚ) < 10 ^ length := by exact_mod_cast hlength
    rw [zpow_add₀ (by norm_num), zpow_natCast, mul_comm] at hpow
    have hless := (mul_lt_mul_of_pos_right hdigits' hscale).trans_le hpow
    exact absurd hlow (not_le.mpr (hless.trans two_zpow_lt_ten_zpow.2))

/-- **A positive value becomes itself from every decimal that is nearest to it.** Decimals far out
of the range are not computed, and none of them is nearest to any value. -/
theorem ofDecimal_eq {negative : Bool} {significand digits length : Nat} {exponent scale : Int}
    (hcanonical : Canonical (finite negative significand exponent)) (hpos : 0 < significand)
    (hlength : digits < 10 ^ length)
    (hrounds : Rounds significand exponent (digits * 10 ^ scale)) :
    ofDecimal negative digits length scale = finite negative significand exponent := by
  obtain ⟨hlow, hhigh⟩ := hrounds.bounds hcanonical hpos
  obtain ⟨hdigits, hsmall, hlarge⟩ := scale_bounds hlength hlow hhigh
  rw [ofDecimal, if_neg hdigits, if_neg hsmall, if_neg hlarge]
  -- with a power of ten above or below the line the decimal is a quotient of natural numbers
  split
  · rename_i hsign
    refine ofRatio_eq hcanonical hpos Nat.one_pos ?_
    rwa [cast_mul_pow, Nat.cast_ofNat, Nat.cast_one, div_one, ← zpow_of_nonneg 10 hsign]
  · rename_i hsign
    refine ofRatio_eq hcanonical hpos (Nat.pow_pos (by decide)) ?_
    have hpow : ((Nat.pow 10 (-scale).toNat : Nat) : ℚ) = 10 ^ (-scale).toNat := Nat.cast_pow 10 _
    rwa [hpow, div_eq_mul_inv, ← zpow_of_neg 10 hsign]

end ModelGraph.Binary64
