import ModelGraph.Binary64.Text
import ModelGraph.Proofs.Binary64.Rounding

/-!
# Values in their only form

Rounding never gives a number in two forms: the significand uses all its bits, unless the exponent
is the least one already. So two numbers that are read are equal only if they are written equal.

- `roundToEven_bounds`: rounding goes to the quotient cut off or to the next number.
- `ofRatio_canonical`, `ofDecimal_canonical`: a quotient and a decimal have one form as values.
- `Literal.value_canonical`: so has a literal.
-/

namespace ModelGraph.Binary64

/-- Rounding goes to the quotient cut off or to the next number. -/
theorem roundToEven_bounds (num den : Nat) :
    num / den ≤ roundToEven num den ∧ roundToEven num den ≤ num / den + 1 := by
  unfold roundToEven
  dsimp only
  split
  · omega
  · split
    · omega
    · split <;> omega

/-- The significand before rounding has at most its full width, and has less only at the least
exponent. -/
theorem scaled_bounds {num den : Nat} (hnum : 0 < num) (hden : 0 < den) :
    let scaled := scaleRatio num den (exponentOf num den)
    scaled.1 / scaled.2 < significandLimit ∧ leastExponent ≤ exponentOf num den ∧
      (significandLimit / 2 ≤ scaled.1 / scaled.2 ∨ exponentOf num den = leastExponent) := by
  intro scaled
  obtain ⟨exact, hexact, hlow, hhigh⟩ := exponentOf_spec hnum hden
  obtain ⟨hpos, hscaled⟩ := scaleRatio_spec num hden (exponentOf num den)
  have hpos' : (0 : ℚ) < scaled.2 := by exact_mod_cast hpos
  have hunit := two_zpow_pos (exponentOf num den)
  rw [hscaled] at hlow hhigh
  have hexponents : (2 : ℚ) ^ exact ≤ 2 ^ exponentOf num den :=
    zpow_le_zpow_right₀ (by norm_num) (by omega)
  refine ⟨?_, by omega, ?_⟩
  · -- the exponent is at least the one that gives full width
    have hless : (scaled.1 / scaled.2 : ℚ) * 2 ^ exponentOf num den <
        2 ^ 53 * 2 ^ exponentOf num den := by
      refine hhigh.trans_le ?_
      gcongr
    have hquotient := (div_lt_iff₀ hpos').mp (lt_of_mul_lt_mul_right hless hunit.le)
    refine (Nat.div_lt_iff_lt_mul hpos).mpr ?_
    have hlimit : significandLimit = 2 ^ 53 := rfl
    rw [hlimit]
    exact_mod_cast hquotient
  · -- the width is full, unless the least exponent stands in for a smaller one
    rcases Int.le_total leastExponent exact with hle | hle
    · left
      have hsame : exponentOf num den = exact := by omega
      rw [← hsame] at hlow
      have hquotient := (le_div_iff₀ hpos').mp (le_of_mul_le_mul_right hlow hunit)
      refine (Nat.le_div_iff_mul_le hpos).mpr ?_
      have hhalf : significandLimit / 2 = 2 ^ 52 := rfl
      rw [hhalf]
      exact_mod_cast hquotient
    · right
      omega

/-- **A rounded quotient is in its only form.** A carry makes the significand one bit too wide, and
then it is a power of two, so halving it loses nothing. -/
theorem ofRatio_canonical (negative : Bool) (num : Nat) {den : Nat} (hden : 0 < den) :
    (ofRatio negative num den).Canonical := by
  unfold ofRatio
  split
  · -- zero has the least exponent
    exact ⟨by decide, by decide, by decide, .inr rfl⟩
  · rename_i hnum
    obtain ⟨hwidth, hleast, hfull⟩ := scaled_bounds (Nat.pos_of_ne_zero hnum) hden
    dsimp only at hwidth hfull ⊢
    generalize scaleRatio num den (exponentOf num den) = scaled at hwidth hfull ⊢
    generalize exponentOf num den = exponent at hleast hfull ⊢
    obtain ⟨hlow, hhigh⟩ := roundToEven_bounds scaled.1 scaled.2
    split
    · -- one bit too many goes into the exponent
      split
      · trivial
      · have hhalf : significandLimit / 2 < significandLimit := by decide
        exact ⟨hhalf, by omega, by omega, .inl (Nat.le_refl _)⟩
    · split
      · trivial
      · -- what is rounded without a carry keeps its exponent
        refine ⟨?_, hleast, by omega, hfull.imp_left fun h => h.trans hlow⟩
        have hnot : ¬ roundToEven scaled.1 scaled.2 = significandLimit := by assumption
        dsimp only
        omega

/-- A decimal is in its only form as a value. -/
theorem ofDecimal_canonical (negative : Bool) (digits length : Nat) (exponent : Int) :
    (ofDecimal negative digits length exponent).Canonical := by
  have hzero : (zero negative).Canonical := ⟨by decide, by decide, by decide, .inr rfl⟩
  unfold ofDecimal
  split
  · exact hzero
  -- the early exits give an infinity or a zero, and the rest is rounded
  · split
    · trivial
    · split
      · exact hzero
      · split
        · exact ofRatio_canonical negative _ Nat.one_pos
        · exact ofRatio_canonical negative _ (Nat.pow_pos (by decide))

/-- The value of a literal is in its only form. So numbers that are read are equal as soon as they
have the same value. -/
theorem Literal.value_canonical (l : Literal) : l.value.Canonical :=
  ofDecimal_canonical l.negative _ _ _

end ModelGraph.Binary64
