import ModelGraph.Binary64.Text
import ModelGraph.Proofs.Text.Digits

/-!
# Shapes of the texts of numbers

The text of a finite number begins with a digit behind its sign, consists of a few kinds of
characters only, and cannot be taken for the text of an integer where the format asks for a point.

- `Numeral`: the shape of the texts of integers and of finite numbers.
- `Layout.numeral_text`: every finite number has it, in every format.
-/

namespace ModelGraph.Binary64

/-! ## Shapes -/

/-- A character of the texts of finite numbers. -/
def isNumeralChar (c : Char) : Bool :=
  Text.isDigit c || c == '.' || c == 'e' || c == '+' || c == '-'

/-- A number without its sign. -/
structure Unsigned (s : List Char) : Prop where
  first : s.head?.any Text.isDigit = true
  chars : ∀ c ∈ s, isNumeralChar c = true

/-- A number without its sign begins with a digit. -/
theorem Unsigned.exists_cons {s : List Char} (h : Unsigned s) :
    ∃ c rest, s = c :: rest ∧ Text.isDigit c = true := by
  cases s with
  | nil => exact absurd h.first (by decide)
  | cons c rest => exact ⟨c, rest, rfl, h.first⟩

/-- A number, possibly behind a minus sign. Readers need to know no more of a number than this to
find out where it begins and ends. -/
inductive Numeral : List Char → Prop where
  | positive {s : List Char} (unsigned : Unsigned s) : Numeral s
  | negative {s : List Char} (unsigned : Unsigned s) : Numeral ('-' :: s)

/-- The text says that it is not the text of an integer. This is what keeps whole floating point
numbers apart from integers. -/
def HasMark (s : List Char) : Prop := '.' ∈ s ∨ 'e' ∈ s

theorem isNumeralChar_of_isDigit {c : Char} (h : Text.isDigit c = true) :
    isNumeralChar c = true := by
  simp [isNumeralChar, h]

/-- Besides digits there are four more characters in texts of numbers. -/
theorem isDigit_or_of_isNumeralChar {c : Char} (h : isNumeralChar c = true) :
    Text.isDigit c = true ∨ c = '.' ∨ c = 'e' ∨ c = '+' ∨ c = '-' := by
  simpa only [isNumeralChar, Bool.or_eq_true, beq_iff_eq, or_assoc] using h

theorem isNumeralChar_ne {c d : Char} (hc : isNumeralChar c = true) (hd : isNumeralChar d = false) :
    c ≠ d := by
  rintro rfl
  exact absurd (hc.symm.trans hd) (by decide)

/-- A numeral is not empty, and has only characters of numbers. -/
theorem Numeral.chars {s : List Char} (h : Numeral s) :
    s ≠ [] ∧ ∀ c ∈ s, isNumeralChar c = true := by
  cases h with
  | positive hs =>
    obtain ⟨c, rest, rfl, -⟩ := hs.exists_cons
    exact ⟨List.cons_ne_nil c rest, hs.chars⟩
  | negative hs =>
    refine ⟨List.cons_ne_nil _ _, fun c hc => ?_⟩
    rcases List.mem_cons.mp hc with rfl | hc
    · decide
    · exact hs.chars c hc

/-- A decimal text is a number without a sign. -/
theorem unsigned_decimal (n : Nat) : Unsigned (Text.decimal n) := by
  refine ⟨?_, fun c hc => isNumeralChar_of_isDigit (Text.isDigit_of_mem_decimal hc)⟩
  obtain ⟨c, rest, hdigits, hc⟩ := Text.decimal_eq_cons n
  rw [hdigits]
  exact hc

/-- The decimal text of an integer is a numeral. -/
theorem numeral_decimalInt (i : Int) : Numeral (Text.decimalInt i) := by
  rw [Text.decimalInt]
  split
  · exact .negative (unsigned_decimal _)
  · exact .positive (unsigned_decimal _)

theorem isNumeralChar_of_mem_decimalInt {i : Int} {c : Char} (h : c ∈ Text.decimalInt i) :
    isNumeralChar c = true := by
  rw [Text.decimalInt] at h
  split at h
  · rcases List.mem_cons.mp h with rfl | h
    · decide
    · exact (unsigned_decimal _).chars c h
  · exact (unsigned_decimal _).chars c h

/-- More characters of numbers may follow. -/
theorem Unsigned.append {s t : List Char} (hs : Unsigned s)
    (ht : ∀ c ∈ t, isNumeralChar c = true) : Unsigned (s ++ t) := by
  refine ⟨?_, fun c hc => ?_⟩
  · cases s with
    | nil => exact nomatch hs.first
    | cons c rest => exact hs.first
  · rcases List.mem_append.mp hc with h | h
    · exact hs.chars c h
    · exact ht c h

/-! ## Layouts -/

private theorem isNumeralChar_of_mem_zeros {n : Nat} {c : Char} (h : c ∈ List.replicate n '0') :
    isNumeralChar c = true := by
  rw [List.eq_of_mem_replicate h]
  decide

/-- A point may stand anywhere behind the first digit. -/
theorem Unsigned.pointed {s : List Char} (hs : Unsigned s) {k : Nat} (hk : 0 < k) :
    Unsigned (s.take k ++ '.' :: s.drop k) := by
  obtain ⟨c, rest, rfl, hc⟩ := hs.exists_cons
  obtain ⟨k, rfl⟩ := Nat.exists_eq_add_one_of_ne_zero (Nat.ne_of_gt hk)
  have hfront : Unsigned ((c :: rest).take (k + 1)) :=
    ⟨hc, fun d hd => hs.chars d (List.mem_of_mem_take hd)⟩
  refine hfront.append (List.forall_mem_cons.mpr ⟨by decide, fun d hd => ?_⟩)
  exact hs.chars d (List.mem_of_mem_drop hd)

/-- Digits around a point are a number without a sign. Where the format asks for a point in every
number, there is one. -/
theorem positional_shape (wholePoint : Bool) (n : Nat) (position : Int) :
    Unsigned (positional wholePoint (Text.decimal n) position) ∧
      (wholePoint = true → HasMark (positional wholePoint (Text.decimal n) position)) := by
  have hdigits := unsigned_decimal n
  unfold positional
  split
  · -- zeros in front of the digits, behind them, or a point among them
    have hzero : Unsigned ['0', '.'] := ⟨rfl, List.all_eq_true.mp (by decide)⟩
    exact ⟨(hzero.append fun c hc => isNumeralChar_of_mem_zeros hc).append hdigits.chars,
      fun _ => .inl (by simp)⟩
  -- whole numbers get a point behind them only if the format asks for one
  · split
    · refine ⟨(hdigits.append fun c hc => isNumeralChar_of_mem_zeros hc).append ?_,
        fun h => .inl (by simp [h])⟩
      split
      · exact List.all_eq_true.mp (by decide)
      · exact nofun
    · exact ⟨hdigits.pointed (by omega), fun _ => .inl (by simp)⟩

/-- So are digits with an exponent behind them, which has its mark. No other character occurs in the
text of a finite number. -/
theorem scientific_shape (plusSign : Bool) (n : Nat) (exponent : Int) :
    Unsigned (scientific plusSign (Text.decimal n) exponent) ∧
      HasMark (scientific plusSign (Text.decimal n) exponent) := by
  have hdigits := unsigned_decimal n
  unfold scientific
  dsimp only
  rw [List.append_assoc]
  -- the digits with their point, then the mark with the exponent
  refine ⟨Unsigned.append ?_ ?_, .inr (by simp)⟩
  -- several digits have a point behind the first of them
  · split
    · rename_i first next rest hcons
      rw [hcons] at hdigits
      refine ⟨hdigits.first, fun c hc => ?_⟩
      rcases List.mem_cons.mp hc with rfl | hc
      · exact hdigits.chars _ List.mem_cons_self
      · rcases List.mem_cons.mp hc with rfl | hc
        · decide
        · exact hdigits.chars c (List.mem_cons_of_mem first hc)
    · exact hdigits
  · intro c hc
    rcases List.mem_cons.mp hc with rfl | hc
    · decide
    · rcases List.mem_append.mp hc with hc | hc
      · split at hc
        · rw [List.mem_singleton.mp hc]; decide
        · exact nomatch hc
      · exact isNumeralChar_of_mem_decimalInt hc

/-- Whichever of the two layouts is chosen for a decimal, it is a number without a sign. -/
theorem Layout.decimal_shape (layout : Layout) (d : Decimal) :
    Unsigned (layout.decimal d) ∧ (layout.wholePoint = true → HasMark (layout.decimal d)) := by
  have hchoice : ∀ (isPositional : Bool) (position : Int),
      let s := if isPositional then positional layout.wholePoint (Text.decimal d.digits) position
        else scientific layout.plusSign (Text.decimal d.digits) (position - 1)
      Unsigned s ∧ (layout.wholePoint = true → HasMark s) := by
    intro isPositional position
    cases isPositional with
    | true => exact positional_shape ..
    | false => exact ⟨(scientific_shape ..).1, fun _ => (scientific_shape ..).2⟩
  exact hchoice _ _

/-- **The text of a finite number is a numeral**, and where a format asks for a point, none of an
integer. -/
theorem Layout.numeral_text (layout : Layout) (negative : Bool) (significand : Nat)
    (exponent : Int) :
    Numeral (layout.text (finite negative significand exponent)) ∧
      (layout.wholePoint = true →
        HasMark (layout.text (finite negative significand exponent))) := by
  -- the sign is put in front of a number without one, whichever way it is laid out
  have hbody : Unsigned (if significand = 0 then
        (if layout.wholePoint then ['0', '.', '0'] else ['0'])
      else layout.decimal (shortest layout.tie significand exponent)) ∧
      (layout.wholePoint = true → HasMark (if significand = 0 then
        (if layout.wholePoint then ['0', '.', '0'] else ['0'])
      else layout.decimal (shortest layout.tie significand exponent))) := by
    split
    · split
      · exact ⟨⟨by decide, List.all_eq_true.mp (by decide)⟩, fun _ => .inl (by decide)⟩
      · rename_i h
        exact ⟨⟨by decide, List.all_eq_true.mp (by decide)⟩, fun hpoint => absurd hpoint h⟩
    · exact layout.decimal_shape _
  unfold Layout.text
  -- a minus sign is no digit, so it is the only place where the two shapes differ
  cases negative with
  | false => exact ⟨.positive hbody.1, hbody.2⟩
  | true =>
    exact ⟨.negative hbody.1, fun h =>
      (hbody.2 h).imp (List.mem_cons_of_mem _) (List.mem_cons_of_mem _)⟩

end ModelGraph.Binary64
