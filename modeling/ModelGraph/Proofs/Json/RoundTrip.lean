import ModelGraph.Proofs.Json.Events

/-!
# JSON texts of trees

A tree is read back from its JSON text. Of a floating point number it is asked only that the number
in its text is this number again; that it is not taken for an integer follows from how numbers are
written.

- `not_hasMark_of_whole`: a number without fraction and exponent has neither a point nor an `e`.
- `readable_of_exact`: a leaf that is exact is read back as what it was.
- `text_lossless`: JSON texts lose nothing.
-/

namespace ModelGraph.Json

open Binary64 (HasMark)

/-! ## Kinds of numbers -/

/-- What is taken for a run of digits is one. -/
theorem digits?_eq_some {s run rest : List Char} (h : digits? s = some (run, rest)) :
    s = run ++ rest ∧ ∀ c ∈ run, Text.isDigit c = true := by
  unfold digits? at h
  split at h
  · cases h
  · cases h
    exact ⟨List.takeWhile_append_dropWhile.symm, List.all_eq_true.mp List.all_takeWhile⟩

/-- What is taken for the part in front of the point is a run of digits as well. -/
theorem whole?_eq_some {s run rest : List Char} (h : whole? s = some (run, rest)) :
    s = run ++ rest ∧ ∀ c ∈ run, Text.isDigit c = true := by
  unfold whole? at h
  split at h
  · cases h
    exact ⟨rfl, List.forall_mem_singleton.mpr rfl⟩
  · exact digits?_eq_some h

/-- Where there is no fraction, nothing has been taken for one. -/
theorem rest_of_fraction?_eq_none {s rest : List Char} (h : fraction? s = some (none, rest)) :
    s = rest := by
  unfold fraction? at h
  split at h
  · obtain ⟨p, -, hp⟩ := Option.map_eq_some_iff.mp h
    cases hp
  · cases h
    rfl

/-- Where there is no exponent, nothing has been taken for one, so the rest is the whole text. -/
theorem rest_of_exponent?_eq_none {s rest : List Char} (h : exponent? s = some (none, rest)) :
    s = rest := by
  have hsigned : ∀ (negative : Bool) (t : List Char),
      ((digits? t).map fun p => (some (negative, p.1), p.2)) ≠ some (none, rest) := by
    intro negative t h
    obtain ⟨p, -, hp⟩ := Option.map_eq_some_iff.mp h
    cases hp
  -- behind the mark of an exponent the exponent is there, or nothing is read at all
  unfold exponent? at h
  dsimp only at h
  split at h
  · split at h <;> exact absurd h (hsigned _ _)
  · split at h <;> exact absurd h (hsigned _ _)
  · cases h
    rfl

/-- A magnitude without fraction and exponent is a run of digits. -/
theorem magnitude?_whole {negative : Bool} {s : List Char} {n : Numeral}
    (h : magnitude? negative s = some (n, [])) (hfraction : n.fraction = none)
    (hexponent : n.exponent = none) : ∀ c ∈ s, Text.isDigit c = true := by
  unfold magnitude? at h
  obtain ⟨⟨run, afterWhole⟩, hwhole, h⟩ := Option.bind_eq_some_iff.mp h
  obtain ⟨⟨fraction, afterFraction⟩, hfrac, h⟩ := Option.bind_eq_some_iff.mp h
  obtain ⟨⟨exponent, afterExponent⟩, hexp, h⟩ := Option.bind_eq_some_iff.mp h
  cases h
  cases hfraction
  cases hexponent
  -- nothing is left behind the whole part
  obtain ⟨hs, hdigits⟩ := whole?_eq_some hwhole
  rw [rest_of_fraction?_eq_none hfrac, rest_of_exponent?_eq_none hexp, List.append_nil] at hs
  exact hs ▸ hdigits

/-- **A number without fraction and exponent has no mark** that would tell it from an integer.
Floating point numbers are printed with such a mark, so they are never read as integers. -/
theorem not_hasMark_of_whole {s : List Char} {n : Numeral} (h : numeral? s = some (n, []))
    (hfraction : n.fraction = none) (hexponent : n.exponent = none) : ¬ HasMark s := by
  have hchars : ∀ c ∈ s, Text.isDigit c = true ∨ c = '-' := by
    unfold numeral? at h
    split at h
    · intro c hc
      rcases List.mem_cons.mp hc with rfl | hc
      · exact .inr rfl
      · exact .inl (magnitude?_whole h hfraction hexponent c hc)
    · exact fun c hc => .inl (magnitude?_whole h hfraction hexponent c hc)
  -- a point and an `e` are neither digits nor signs
  rintro (hmark | hmark)
  · exact absurd (hchars _ hmark) (by decide)
  · exact absurd (hchars _ hmark) (by decide)

/-- A number that has a fraction or an exponent is a floating point number, whatever its value. -/
theorem scalar?_of_marked {n : Numeral} (h : ¬ (n.fraction = none ∧ n.exponent = none)) :
    n.scalar? = n.float?.map .float := by
  have hmarked : (n.fraction.isNone && n.exponent.isNone) = false := by
    rw [← Bool.not_eq_true, Bool.and_eq_true, Option.isNone_iff_eq_none, Option.isNone_iff_eq_none]
    exact h
  rw [Numeral.scalar?, hmarked]
  rfl

/-! ## Floating point numbers -/

/-- The floating point number that a text is. -/
def number? (s : List Char) : Option Binary64 :=
  match numeral? s with
  | some (n, []) => n.float?
  | _ => none

/-- A text that is a number is one as a whole: nothing is left behind it. -/
theorem number?_eq_some {s : List Char} {x : Binary64} (h : number? s = some x) :
    ∃ n, numeral? s = some (n, []) ∧ n.float? = some x := by
  unfold number? at h
  split at h
  · rename_i n hn
    exact ⟨n, hn, h⟩
  · cases h

/-- **A floating point number stays one**, also if it is whole: what is printed always has a point
or an exponent. -/
theorem readsBack_of_number? {x : Binary64} (hfinite : x.isFinite = true)
    (h : number? (floatLayout.text x) = some x) : ReadsBack x := by
  obtain ⟨n, hnumeral, hvalue⟩ := number?_eq_some h
  refine ⟨n, hnumeral, ?_⟩
  cases x with
  | nan => cases hfinite
  | infinite negative => cases hfinite
  | finite negative significand exponent =>
    -- the text has a mark, which it could not have without fraction and exponent
    have hmark := (floatLayout.numeral_text negative significand exponent).2 rfl
    rw [scalar?_of_marked fun hwhole => not_hasMark_of_whole hnumeral hwhole.1 hwhole.2 hmark,
      hvalue]
    rfl

/-! ## Trees -/

/-- A leaf that a text can hold: an unsigned number stands only for what a signed one cannot hold,
and a floating point number is finite and is the number in the text that is printed for it. Reading
rounds twice, so this cannot be left out. -/
def Exact : Scalar → Prop
  | .wide n => Nat.pow 2 63 ≤ n.toNat
  | .float x => x.isFinite = true ∧ number? (floatLayout.text x) = some x
  | _ => True

@[simp]
theorem exact_text (s : String) : Exact (.text s) := trivial

@[simp]
theorem exact_int (i : Int64) : Exact (.int i) := trivial

@[simp]
theorem exact_bool (b : Bool) : Exact (.bool b) := trivial

-- a finite number whose text is read as the number below it
example : number? (floatLayout.text (.finite false 4503623084160425 (-60))) =
    some (.finite false 4503623084160424 (-60)) := by decide +kernel

/-- Of a floating point number it is enough that the number in its text is the number itself. That
it is not taken for an integer is proved. -/
theorem readable_of_exact {v : Scalar} (h : Exact v) : Readable v := by
  cases v with
  | float x => exact ⟨h.1, readsBack_of_number? h.1 h.2⟩
  | wide n => exact h
  | text _ | int _ | bool _ => trivial

/-- **JSON texts lose nothing.** A tree whose maps have no repeated keys is read back from its text
as it was: with the kinds of its numbers, every character of its texts and keys, and all orders.
Containers may nest as deep as they can be read. -/
theorem text_lossless {t : Tree} (hdistinct : t.DistinctKeys) (hleaves : t.LeavesAll Exact)
    (hdepth : t.height ≤ 127) : readTree (render t) = .ok t :=
  readTree_of_render hdistinct (hleaves.imp fun _ => readable_of_exact) hdepth

/-- The ends of the ranges of integers, numbers that could be taken for others, and characters that
need escapes or look as if they did. -/
def borderTree : Tree :=
  .map ⟨[("", .seq [.scalar (.int (-9223372036854775808)), .scalar (.int 9223372036854775807),
      .scalar (.wide 9223372036854775808), .scalar (.wide 18446744073709551615),
      .scalar (.int 0), .text "-0"]),
    ("\"\\/\x00\x1f\x7f\u2028é", .text "\x08\x0c\n\r\t\\u0041 😀"),
    ("floats", .seq [.float (.finite false 4503599627370496 (-52)), .float (.zero true),
      .float (.finite false 5000000000000000 1),
      .float (.finite true 7205759403792794 (-56))]),
    ("nothing", .seq [.seq [], .map ⟨[]⟩, .seq [.map ⟨[("null", .text "null")]⟩],
      .scalar (.bool false)])]⟩

/-- All assumptions are met by these leaves, and the tree is read back. -/
theorem borderTree_lossless : borderTree.DistinctKeys ∧ borderTree.LeavesAll Exact ∧
    borderTree.height ≤ 127 ∧ readTree (render borderTree) = .ok borderTree := by
  have hdistinct : borderTree.DistinctKeys := by simp [borderTree, Tree.text, Tree.float]
  have hwhole : Exact (.float (.finite false 4503599627370496 (-52))) :=
    ⟨rfl, by decide +kernel⟩
  have hzero : Exact (.float (.zero true)) := ⟨rfl, by decide +kernel⟩
  have hlarge : Exact (.float (.finite false 5000000000000000 1)) := ⟨rfl, by decide +kernel⟩
  have htenth : Exact (.float (.finite true 7205759403792794 (-56))) := ⟨rfl, by decide +kernel⟩
  have hfirst : Exact (.wide 9223372036854775808) := by unfold Exact; decide
  have hlast : Exact (.wide 18446744073709551615) := by unfold Exact; decide
  -- each kind of number at the border of its range can be written
  have hleaves : borderTree.LeavesAll Exact := by
    simp [borderTree, Tree.text, Tree.float, hwhole, hzero, hlarge, htenth, hfirst, hlast]
  have hdepth : borderTree.height ≤ 127 := by decide +kernel
  exact ⟨hdistinct, hleaves, hdepth, text_lossless hdistinct hleaves hdepth⟩

end ModelGraph.Json
