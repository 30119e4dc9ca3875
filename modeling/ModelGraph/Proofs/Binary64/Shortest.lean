import ModelGraph.Binary64.Shortest
import ModelGraph.Proofs.Binary64.Rounding

/-!
# The shortest decimal reads back

The search for the fewest digits tests every decimal that it proposes in exact arithmetic, and stops
at the exact value if none passes. So what it finds is nearest to the value, whatever grid it was
found on.

- `compareScaled_spec`, `rounds_of_readsBack`: the test decides on rational numbers.
- `shortest_rounds`: the decimal that is found is nearest to the value.
-/

namespace ModelGraph.Binary64

/-- The number that a decimal is. -/
def Decimal.value (d : Decimal) : ℚ := d.digits * 10 ^ d.exponent

/-! ## Comparing -/

/-- Both numbers are compared as multiples of one unit. All powers with negative exponents go into
this unit, so natural numbers are compared in the end. -/
theorem compareScaled_spec (a : Nat) (i : Int) (n : Nat) (j : Int) : ∃ (unit : ℚ) (x y : Nat),
    0 < unit ∧ compareScaled a i n j = compare x y ∧
      (x : ℚ) = a * 10 ^ i * unit ∧ (y : ℚ) = n * 2 ^ j * unit := by
  refine ⟨10 ^ (-i).toNat * 2 ^ (-j).toNat, _, _, by positivity, rfl, ?_, ?_⟩
  · rw [cast_mul_pow, cast_mul_pow, Nat.cast_ofNat, Nat.cast_ofNat,
      ← zpow_mul_toNat (by norm_num) i]
    ring
  · rw [cast_mul_pow, cast_mul_pow, Nat.cast_ofNat, Nat.cast_ofNat,
      ← zpow_mul_toNat (by norm_num) j]
    ring

/-- What is found to be less is less. -/
theorem compareScaled_lt {a : Nat} {i : Int} {n : Nat} {j : Int}
    (h : compareScaled a i n j = .lt) : (a * 10 ^ i : ℚ) < n * 2 ^ j := by
  obtain ⟨unit, x, y, hunit, heq, hx, hy⟩ := compareScaled_spec a i n j
  have hlt : (x : ℚ) < y := by exact_mod_cast Nat.compare_eq_lt.mp (heq ▸ h)
  rw [hx, hy] at hlt
  exact lt_of_mul_lt_mul_right hlt hunit.le

/-- What is found to be greater is greater. -/
theorem compareScaled_gt {a : Nat} {i : Int} {n : Nat} {j : Int}
    (h : compareScaled a i n j = .gt) : (n * 2 ^ j : ℚ) < a * 10 ^ i := by
  obtain ⟨unit, x, y, hunit, heq, hx, hy⟩ := compareScaled_spec a i n j
  have hlt : (y : ℚ) < x := by exact_mod_cast Nat.compare_eq_gt.mp (heq ▸ h)
  rw [hx, hy] at hlt
  exact lt_of_mul_lt_mul_right hlt hunit.le

/-- What is found to be equal is equal. -/
theorem compareScaled_eq {a : Nat} {i : Int} {n : Nat} {j : Int}
    (h : compareScaled a i n j = .eq) : (a * 10 ^ i : ℚ) = n * 2 ^ j := by
  obtain ⟨unit, x, y, hunit, heq, hx, hy⟩ := compareScaled_spec a i n j
  have hsame : (x : ℚ) = y := by exact_mod_cast Nat.compare_eq_eq.mp (heq ▸ h)
  rw [hx, hy] at hsame
  exact mul_right_cancel₀ hunit.ne' hsame

/-! ## Testing -/

variable {significand : Nat} {exponent : Int}

/-- A decimal that passes the test is nearest to the value. The test is in exact arithmetic, so this
does not depend on how the decimal has been found. -/
theorem rounds_of_readsBack {d : Decimal} (h : readsBack significand exponent d = true) :
    Rounds significand exponent d.value := by
  have hmiddle :
      (if (significand == significandLimit / 2 && decide (leastExponent < exponent)) = true
        then 4 * significand - 1 else 4 * significand - 2) = lowMiddle significand exponent := by
    simp only [lowMiddle, Bool.and_eq_true, beq_iff_eq, decide_eq_true_eq]
  unfold readsBack at h
  dsimp only at h
  rw [hmiddle] at h
  simp only [Bool.and_eq_true, Bool.or_eq_true, beq_iff_eq] at h
  obtain ⟨hlow, hhigh⟩ := h
  -- each bound holds strictly, or with equality for an even significand
  refine ⟨?_, ?_, fun hodd => ⟨?_, ?_⟩⟩
  · rcases hlow with hgt | ⟨-, heq⟩
    · exact (compareScaled_gt hgt).le
    · exact (compareScaled_eq heq).ge
  · rcases hhigh with hlt | ⟨-, heq⟩
    · exact (compareScaled_lt hlt).le
    · exact (compareScaled_eq heq).le
  · rcases hlow with hgt | ⟨heven, -⟩
    · exact compareScaled_gt hgt
    · omega
  · rcases hhigh with hlt | ⟨heven, -⟩
    · exact compareScaled_lt hlt
    · omega

/-- The value is nearest to itself, since it lies strictly between the two middles. So the exact
decimal would do, were no shorter one found. -/
theorem rounds_self (hpos : 0 < significand) (exponent : Int) :
    Rounds significand exponent (significand * 2 ^ exponent) := by
  -- the value lies strictly between its middles, so its parity does not matter
  have hunit := two_zpow_pos (exponent - 2)
  have hlow : (lowMiddle significand exponent : ℚ) * 2 ^ (exponent - 2) <
      significand * 2 ^ exponent := by
    -- the middle below is a quarter or a half of a unit less
    have hless : lowMiddle significand exponent < 4 * significand := by
      rw [lowMiddle]
      split <;> omega
    have hless' : (lowMiddle significand exponent : ℚ) < 4 * significand := by exact_mod_cast hless
    rw [two_zpow_quarters exponent]
    nlinarith
  have hhigh : (significand * 2 ^ exponent : ℚ) <
      (4 * significand + 2 : ℕ) * 2 ^ (exponent - 2) := by
    rw [two_zpow_quarters exponent]
    push_cast
    nlinarith
  exact ⟨hlow.le, hhigh.le, fun _ => ⟨hlow, hhigh⟩⟩

/-! ## Searching -/

/-- Whatever is found on a grid has passed the test, whichever of the two neighbours it is. -/
theorem readsBack_of_onGrid {tie : Tie} {num den : Nat} {grid : Int} {d : Decimal}
    (h : onGrid tie significand exponent num den grid = some d) :
    readsBack significand exponent d = true := by
  unfold onGrid at h
  generalize (if 0 ≤ grid then (num, den * Nat.pow 10 grid.toNat)
    else (num * Nat.pow 10 (-grid).toNat, den)) = scaled at h
  dsimp only at h
  split at h
  · cases h
  · cases h
    assumption
  · cases h
    assumption
  · -- of two neighbours that pass, the nearer one is taken
    split at h
    · cases h
      assumption
    · cases h
      assumption
    · cases tie with
      | away => cases h; assumption
      | toEven => dsimp only at h; split at h <;> cases h <;> assumption

/-- Taking zeros away does not change the number. -/
theorem value_strip (fuel : Nat) (d : Decimal) : (d.strip fuel).value = d.value := by
  induction fuel generalizing d with
  | zero => rfl
  | succ fuel ih =>
    rw [Decimal.strip]
    split
    · rename_i hzero
      rw [ih, Decimal.value, Decimal.value]
      -- a last digit that is zero goes from the digits into the exponent
      have hten : d.digits = 10 * (d.digits / 10) := by omega
      have hten' : (d.digits : ℚ) = 10 * (d.digits / 10 : ℕ) := by exact_mod_cast hten
      rw [hten', zpow_add_one₀ (by norm_num)]
      ring
    · rfl

/-- **The shortest decimal is nearest to its value.** That it is the shortest one is of no concern
here: whatever the search proposes has passed the test, and where nothing passes the exact value is
written. -/
theorem shortest_rounds (tie : Tie) (hpos : 0 < significand) (exponent : Int) :
    Rounds significand exponent (shortest tie significand exponent).value := by
  unfold shortest
  dsimp only
  split
  · -- zeros taken away at the end do not change what was found
    rename_i d hfound
    obtain ⟨fineness, -, hgrid⟩ := List.exists_of_findSome?_eq_some hfound
    rw [value_strip]
    exact rounds_of_readsBack (readsBack_of_onGrid hgrid)
  · -- no grid was fine enough, and the exact value is written
    have hself := rounds_self hpos exponent
    split
    · rename_i hsign
      have hvalue : (significand * 2 ^ exponent : ℚ) =
          Decimal.value ⟨significand * Nat.pow 2 exponent.toNat, 0⟩ := by
        rw [Decimal.value, cast_mul_pow, Nat.cast_ofNat, zpow_zero, mul_one, zpow_of_nonneg 2 hsign]
      rwa [hvalue] at hself
    · rename_i hsign
      have hvalue : (significand * 2 ^ exponent : ℚ) =
          Decimal.value ⟨significand * Nat.pow 5 (-exponent).toNat, exponent⟩ := by
        have hten : (10 : ℚ) ^ exponent = 5 ^ exponent * 2 ^ exponent := by
          rw [← mul_zpow]
          norm_num
        rw [Decimal.value, cast_mul_pow, Nat.cast_ofNat, hten, zpow_of_neg 5 hsign]
        field_simp
      rwa [hvalue] at hself

end ModelGraph.Binary64
