import ModelGraph.Proofs.Binary64.Literal
import ModelGraph.Proofs.Yaml.Plain
import ModelGraph.Yaml.Reader

/-!
# Leaves read back

The style and the text that a leaf is written with, and that reading them gives the leaf again. A
text is written without quotes only if it is taken for nothing else, and a number is taken for
nothing but this number.

- `leafStyle`, `leafChars`: how a leaf is written.
- `Readable`: what is asked of numbers; `readable_of_canonical`.
- `scalar?_writtenLeaf`, `presence_writtenLeaf`: the leaf is read back, and never goes missing.
-/

namespace ModelGraph

/-- A leaf in its only form: an unsigned number stands only for what a signed one cannot hold, and a
floating point number uses all bits of its significand. -/
def Scalar.Canonical : Scalar → Prop
  | .wide n => Nat.pow 2 63 ≤ n.toNat
  | .float x => x.Canonical
  | _ => True

namespace Yaml

open Text (isDigit_ne)
open Binary64 (isNumeralChar_ne isDigit_or_of_isNumeralChar)

/-! ## How leaves are written -/

/-- The style of a leaf. -/
def leafStyle : Scalar → Style
  | .text s => styleOf s.toList
  | _ => .plain

/-- The text of a leaf without the marks of its style. -/
def leafChars : Scalar → List Char
  | .text s => s.toList
  | .float x => floatLayout.text x
  | other => other.toChars

/-- Printing and reading are inverse for a number. -/
def ReadsBack (x : Binary64) : Prop := Plain.float? (floatLayout.text x) = some x

/-- An unsigned number stands only for what a signed one cannot hold, and a finite floating
point number reads back. -/
def Readable : Scalar → Prop
  | .wide n => Nat.pow 2 63 ≤ n.toNat
  | .float x => x.isFinite = true → ReadsBack x
  | _ => True

/-- What the choice of a style says about a text. A folded block is never chosen. -/
theorem styleOf_spec (s : List Char) :
    match styleOf s with
    | .plain => Plain.isText s = true ∧ allowsPlain s = true
    | .single => allowsSingle s = true ∧ '\n' ∉ s
    | .literal => allowsBlock s = true ∧ '\n' ∈ s
    | .double => True
    | .folded => False := by
  unfold styleOf
  -- the styles are tried in this order, and double quotes are always left
  by_cases hfeed : s.contains '\n' = true
  · rw [if_pos hfeed]
    by_cases hblock : allowsBlock s = true
    · rw [if_pos hblock]
      exact ⟨hblock, List.contains_iff_mem.mp hfeed⟩
    · rw [if_neg hblock]
      trivial
  · rw [if_neg hfeed]
    by_cases hplain : (Plain.isText s && allowsPlain s) = true
    · rw [if_pos hplain]
      exact Bool.and_eq_true_iff.mp hplain
    · rw [if_neg hplain]
      by_cases hsingle : allowsSingle s = true
      · rw [if_pos hsingle]
        exact ⟨hsingle, fun h => hfeed (List.contains_iff_mem.mpr h)⟩
      · rw [if_neg hsingle]
        trivial

/-- What the plain style says about a text: read as a plain scalar, the text stands for itself, and
nothing in it asks for quotes. -/
theorem isText_of_styleOf {s : List Char} (h : styleOf s = .plain) :
    Plain.isText s = true ∧ allowsPlain s = true := by
  have hspec := styleOf_spec s
  rwa [h] at hspec

/-! ## Plain scalars without indicators -/

/-- Behind the first character only colons and hashes may be indicators. -/
theorem any_placesFrom_eq_false {front s : List Char} (hfront : front ≠ [])
    (h : ∀ c ∈ s, c ≠ ':' ∧ c ≠ '#') : (placesFrom front s).any isIndicatorAt = false := by
  induction s generalizing front with
  | nil => rfl
  | cons c rest ih =>
    obtain ⟨b, bs, rfl⟩ := List.exists_cons_of_ne_nil hfront
    obtain ⟨hcolon, hhash⟩ := h c List.mem_cons_self
    rw [placesFrom, List.any_cons,
      ih (List.cons_ne_nil c _) fun d hd => h d (List.mem_cons_of_mem c hd)]
    simp [isIndicatorAt, hcolon, hhash]

/-- A numeral has no blanks. -/
theorem isBlank_of_isNumeralChar {c : Char} (h : Binary64.isNumeralChar c = true) :
    isBlank c = false := by
  have hspace : c ≠ ' ' := isNumeralChar_ne h (by decide)
  have htab : c ≠ '\t' := isNumeralChar_ne h (by decide)
  simp [isBlank, hspace, htab]

/-- A numeral has no line breaks. -/
theorem isBreak_of_isNumeralChar {c : Char} (h : Binary64.isNumeralChar c = true) :
    isBreak c = false := by
  have h1 : c ≠ '\n' := isNumeralChar_ne h (by decide)
  have h2 : c ≠ '\r' := isNumeralChar_ne h (by decide)
  have h3 : c ≠ '\u0085' := isNumeralChar_ne h (by decide)
  have h4 : c ≠ '\u2028' := isNumeralChar_ne h (by decide)
  have h5 : c ≠ '\u2029' := isNumeralChar_ne h (by decide)
  simp [isBreak, h1, h2, h3, h4, h5]

/-- A numeral may be written as itself. -/
theorem isPrintable_of_isNumeralChar {c : Char} (h : Binary64.isNumeralChar c = true) :
    isPrintable c = true := by
  rcases isDigit_or_of_isNumeralChar h with hdigit | rfl | rfl | rfl | rfl
  · obtain ⟨hlow, hhigh⟩ := (Text.isDigit_iff c).mp hdigit
    have hrange : 0x20 ≤ c.toNat ∧ c.toNat ≤ 0x7E := by omega
    simp [isPrintable, hrange]
  all_goals decide

/-- A digit is no indicator. -/
theorem isLeadingIndicator_of_isDigit {c : Char} (h : Text.isDigit c = true) :
    isLeadingIndicator c = false := by
  cases hlead : isLeadingIndicator c with
  | false => rfl
  | true =>
    have hnone : ['#', ',', '[', ']', '\x7b', '\x7d', '&', '*', '!', '|', '>', '\'', '"', '%', '@',
        '\x60'].all (fun d => !Text.isDigit d) = true := by decide
    have hc := List.all_eq_true.mp hnone c (List.contains_iff_mem.mp hlead)
    rw [h] at hc
    exact nomatch hc

/-- Only hyphens and points begin the mark of a document. -/
theorem beginsLikeDocument_cons {c : Char} {rest : List Char} (hminus : c ≠ '-')
    (hpoint : c ≠ '.') : beginsLikeDocument (c :: rest) = false := by
  unfold beginsLikeDocument
  split
  · exact absurd (List.cons.inj ‹_›).1 hminus
  · exact absurd (List.cons.inj ‹_›).1 hpoint
  · rfl

/-- A single hyphen does not begin one either. -/
theorem beginsLikeDocument_minus {c : Char} {rest : List Char} (hminus : c ≠ '-') :
    beginsLikeDocument ('-' :: c :: rest) = false := by
  unfold beginsLikeDocument
  split
  · exact absurd (List.cons.inj (List.cons.inj ‹_›).2).1 hminus
  · exact absurd (List.cons.inj ‹_›).1 (by decide)
  · rfl

/-- Behind its first character a numeral holds no indicators. -/
theorem any_placesFrom_of_isNumeralChar {front s : List Char} (hfront : front ≠ [])
    (h : ∀ c ∈ s, Binary64.isNumeralChar c = true) :
    (placesFrom front s).any isIndicatorAt = false :=
  any_placesFrom_eq_false hfront fun c hc =>
    ⟨isNumeralChar_ne (h c hc) (by decide), isNumeralChar_ne (h c hc) (by decide)⟩

/-- No character of a numeral is read as an indicator, and a numeral does not look like the mark of
a document. The hyphen of a negative number is the one that might be taken for an element of a
sequence. -/
theorem not_indicators_of_numeral {s : List Char} (h : Binary64.Numeral s) :
    (places s).any isIndicatorAt = false ∧ beginsLikeDocument s = false := by
  cases h with
  | positive hs =>
    obtain ⟨c, rest, rfl, hc⟩ := hs.exists_cons
    have hquestion : c ≠ '?' := isDigit_ne hc (by decide)
    have hcolon : c ≠ ':' := isDigit_ne hc (by decide)
    have hminus : c ≠ '-' := isDigit_ne hc (by decide)
    refine ⟨?_, beginsLikeDocument_cons hminus (isDigit_ne hc (by decide))⟩
    rw [places, placesFrom, List.any_cons, any_placesFrom_of_isNumeralChar (List.cons_ne_nil c _)
      fun d hd => hs.chars d (List.mem_cons_of_mem c hd)]
    simp [isIndicatorAt, isLeadingIndicator_of_isDigit hc, hquestion, hcolon, hminus]
  | @negative s hs =>
    obtain ⟨c, rest, rfl, hc⟩ := hs.exists_cons
    have hchar := Binary64.isNumeralChar_of_isDigit hc
    refine ⟨?_, beginsLikeDocument_minus (isDigit_ne hc (by decide))⟩
    rw [places, placesFrom, List.any_cons,
      any_placesFrom_of_isNumeralChar (List.cons_ne_nil _ _) hs.chars]
    -- the hyphen stands inside a word, since a digit follows
    simp [isIndicatorAt, isLeadingIndicator, endsWord, isBlank_of_isNumeralChar hchar,
      isBreak_of_isNumeralChar hchar]

/-- A numeral stays plain. -/
theorem staysPlain_of_numeral {s : List Char} (h : Binary64.Numeral s) : StaysPlain s := by
  obtain ⟨hne, hchars⟩ := h.chars
  obtain ⟨hindicators, hmarks⟩ := not_indicators_of_numeral h
  have hblank : ∀ c ∈ s, isBlank c = false := fun c hc => isBlank_of_isNumeralChar (hchars c hc)
  refine ⟨hne, ?_, ?_, hindicators, hmarks, fun c hc => isPrintable_of_isNumeralChar (hchars c hc)⟩
  · rw [isMultiline, List.any_eq_false]
    intro c hc
    simp [isBreak_of_isNumeralChar (hchars c hc)]
  · rw [atEnds, Bool.or_eq_false_iff, Option.any_eq_false, Option.any_eq_false]
    exact ⟨fun c hc => hblank c (List.mem_of_head? hc),
      fun c hc => hblank c (List.mem_of_getLast? hc)⟩

/-- A text without quotes stays plain: no indicator begins it or stands inside of it where it would
be taken for one. -/
theorem staysPlain_of_allowsPlain {s : List Char} (hs : s ≠ []) (h : allowsPlain s = true) :
    StaysPlain s := by
  simp only [allowsPlain, needsEscapes, Bool.and_eq_true, Bool.not_eq_true', Bool.or_eq_false_iff,
    List.any_eq_false, Bool.not_eq_false] at h
  obtain ⟨⟨⟨⟨⟨hprintable, -⟩, hline⟩, hends⟩, hmarks⟩, hplaces⟩ := h
  refine ⟨hs, hline, ?_, List.any_eq_false.mpr hplaces, hmarks, hprintable⟩
  -- a printable character that is a blank is a space
  have hblank : ∀ c ∈ s, isSpace c = false → isBlank c = false := by
    intro c hc hspace
    cases hb : isBlank c with
    | false => rfl
    | true => simp [eq_of_isPrintable_isBlank (hprintable c hc) hb, isSpace] at hspace
  rw [atEnds, Bool.or_eq_false_iff, Option.any_eq_false, Option.any_eq_false] at hends ⊢
  exact ⟨fun c hc => hblank c (List.mem_of_head? hc) (hends.1 c hc),
    fun c hc => hblank c (List.mem_of_getLast? hc) (hends.2 c hc)⟩

/-! ## Values of texts -/

/-- An integer is never read as a text. -/
theorem integerLeaf?_ne_text (i : Int) (s : String) : Plain.integerLeaf? i ≠ some (.text s) := by
  unfold Plain.integerLeaf? Scalar.ofUnsigned
  split <;> split <;> (try split) <;> simp

/-- What is neither null, nor a truth value, nor an integer stands for no text but its own. -/
theorem eq_of_ofOther {s : List Char} {t : String}
    (h : Plain.Value.ofOther s = .leaf (.text t)) : t = String.ofList s := by
  unfold Plain.Value.ofOther at h
  split at h
  · exact (Scalar.text.inj (Plain.Value.leaf.inj h)).symm
  · split at h
    · cases h
    · exact (Scalar.text.inj (Plain.Value.leaf.inj h)).symm

/-- A plain scalar stands for no text but its own. What stands for a number, a truth value or null
is no text at all. -/
theorem eq_of_ofText {s : List Char} {t : String} (h : Plain.Value.ofText s = .leaf (.text t)) :
    t = String.ofList s ∧ s ≠ [] := by
  unfold Plain.Value.ofText at h
  split at h
  · cases h
  · -- what is not null may still be a truth value or a number, and these are no texts
    rename_i hnull
    refine ⟨?_, fun hs => hnull (by simp [hs])⟩
    split at h
    · cases h
    · split at h
      · split at h
        · rename_i hvalue
          rw [Plain.Value.leaf.inj h] at hvalue
          exact absurd hvalue (integerLeaf?_ne_text _ t)
        · split at h
          · cases h
          · exact eq_of_ofOther h
      · exact eq_of_ofOther h

/-- A text that a plain scalar can stand for is what the plain scalar stands for. -/
theorem ofText_of_isText {s : List Char} (h : Plain.isText s = true) :
    Plain.Value.ofText s = .leaf (.text (String.ofList s)) ∧ s ≠ [] := by
  unfold Plain.isText at h
  split at h
  · rename_i t ht
    obtain ⟨rfl, hs⟩ := eq_of_ofText ht
    exact ⟨ht, hs⟩
  · exact nomatch h

/-! ## Values of numbers -/

/-- A numeral is no word. -/
theorem not_word_of_numeral {s : List Char} (h : Binary64.Numeral s) :
    (s.isEmpty || Plain.isNull s) = false ∧ Plain.bool? s = none := by
  obtain ⟨hne, hchars⟩ := h.chars
  -- every word has a letter that no numeral has
  have hword : ∀ w : List Char, w.any (!Binary64.isNumeralChar ·) = true → s ≠ w := by
    rintro w hw rfl
    obtain ⟨c, hc, hfalse⟩ := List.any_eq_true.mp hw
    rw [hchars c hc] at hfalse
    exact nomatch hfalse
  constructor
  · have hempty : s.isEmpty = false := by simp [hne]
    simp only [Plain.isNull, hempty, Bool.false_or, Bool.or_eq_false_iff, beq_eq_false_iff_ne]
    exact ⟨⟨⟨hword _ (by decide), hword _ (by decide)⟩, hword _ (by decide)⟩, hword _ (by decide)⟩
  · rw [Plain.bool?, if_neg, if_neg]
    · rintro (h | h | h) <;> exact hword _ (by decide) h
    · rintro (h | h | h) <;> exact hword _ (by decide) h

/-- A decimal text is never padded with zeros. -/
theorem isZeroPadded_decimal (n : Nat) : Plain.isZeroPadded (Text.decimal n) = false := by
  obtain ⟨c, rest, hdigits, hc⟩ := Text.decimal_eq_cons n
  have hplus : c ≠ '+' := isDigit_ne hc (by decide)
  have hminus : c ≠ '-' := isDigit_ne hc (by decide)
  have hunsigned : Plain.unsigned (Text.decimal n) = Text.decimal n := by
    rw [hdigits, Plain.unsigned, if_neg (by simp [Plain.isSign, hplus, hminus])]
  rw [Plain.isZeroPadded, hunsigned]
  split
  -- a decimal with a leading zero is the zero alone
  · rename_i d others hpadded
    rw [Text.eq_zero_of_decimal n hpadded] at hpadded
    exact nomatch hpadded
  · rfl

/-- The decimal text of a number has this number as its magnitude. It is not mistaken for a number
to another base, since it has no letters. -/
theorem magnitude?_decimal (n : Nat) : Plain.magnitude? (Text.decimal n) = some n := by
  -- a prefix for another base has a letter in it
  have hletter : ∀ c rest, Text.isDigit c = false → Text.decimal n ≠ '0' :: c :: rest := by
    intro c rest hc h
    have hmem : c ∈ Text.decimal n := by rw [h]; simp
    rw [Text.isDigit_of_mem_decimal hmem] at hc
    exact nomatch hc
  unfold Plain.magnitude?
  split
  · exact absurd ‹_› (hletter _ _ (by decide))
  · exact absurd ‹_› (hletter _ _ (by decide))
  · exact absurd ‹_› (hletter _ _ (by decide))
  · rw [if_neg (by simp [isZeroPadded_decimal]), Text.readNatural?_decimal]

/-- **The decimal text of an integer stands for the integer.** -/
theorem integer?_decimalInt (i : Int) : Plain.integer? (Text.decimalInt i) = some i := by
  rw [Text.decimalInt]
  split
  · rw [Plain.integer?, magnitude?_decimal]
    show some (-(i.natAbs : Int)) = some i
    congr 1
    omega
  · unfold Plain.integer?
    split
    · exact absurd ‹_› (Text.decimal_ne_cons (by decide) _ _)
    · exact absurd ‹_› (Text.decimal_ne_cons (by decide) _ _)
    · rw [magnitude?_decimal, Option.map_some]
      congr 1
      show (i.natAbs : Int) = i
      omega

/-- An integer that fits is what its decimal text stands for. -/
theorem ofText_decimalInt {i : Int} {v : Scalar} (h : Plain.integerLeaf? i = some v) :
    Plain.Value.ofText (Text.decimalInt i) = .leaf v := by
  obtain ⟨hword, hbool⟩ := not_word_of_numeral (Binary64.numeral_decimalInt i)
  simp only [Plain.Value.ofText, hword, Bool.false_eq_true, if_false, hbool, integer?_decimalInt, h]

/-- A signed number is an integer leaf. -/
theorem integerLeaf?_int (v : Int64) : Plain.integerLeaf? v.toInt = some (.int v) := by
  have hlow : -9223372036854775808 ≤ v.toInt := v.le_toInt
  have hhigh : v.toInt < 9223372036854775808 := v.toInt_lt
  have hwide : ((Nat.pow 2 64 : Nat) : Int) = 18446744073709551616 := by decide
  have hsigned : ((Nat.pow 2 63 : Nat) : Int) = 9223372036854775808 := by decide
  unfold Plain.integerLeaf?
  by_cases hpos : 0 ≤ v.toInt
  · have hsmall : v.toInt.toNat < 9223372036854775808 := by omega
    have hnat : (UInt64.ofNat v.toInt.toNat).toNat = v.toInt.toNat := by
      rw [UInt64.toNat_ofNat']
      omega
    -- the number is taken for an unsigned one first, and is signed again as it fits
    rw [if_pos hpos, if_pos (by omega), Scalar.ofUnsigned, hnat, if_pos (by omega),
      ← Int64.ofInt_eq_ofNat, Int.toNat_of_nonneg hpos, Int64.ofInt_toInt]
  · rw [if_neg hpos, if_pos (by omega), Int64.ofInt_toInt]

/-- An unsigned number that no signed one can hold is a leaf of its own kind. -/
theorem integerLeaf?_wide {v : UInt64} (h : Nat.pow 2 63 ≤ v.toNat) :
    Plain.integerLeaf? (v.toNat : Int) = some (.wide v) := by
  have hhigh : v.toNat < 18446744073709551616 := v.toNat_lt
  have hwide : ((Nat.pow 2 64 : Nat) : Int) = 18446744073709551616 := by decide
  rw [Plain.integerLeaf?, if_pos (Int.natCast_nonneg _), if_pos (by omega), Int.toNat_natCast,
    UInt64.ofNat_toNat, Scalar.ofUnsigned, if_neg (Nat.not_lt.mpr h)]

/-! ## Values of floating point numbers -/

/-- A numeral with a mark has no value as a run of digits. -/
theorem readNatural?_of_hasMark {s : List Char} (h : Binary64.HasMark s) :
    Text.readNatural? 10 s = none := by
  obtain ⟨c, hc, hvalue⟩ : ∃ c ∈ s, Text.digitValue? 10 c = none := by
    rcases h with h | h
    · exact ⟨_, h, by decide⟩
    · exact ⟨_, h, by decide⟩
  -- reading fails at the mark at the latest
  have hfrom : ∀ (s : List Char) (read : Nat), c ∈ s → Text.readNaturalFrom? 10 read s = none := by
    intro s
    induction s with
    | nil => intro _ hmem; exact absurd hmem List.not_mem_nil
    | cons d rest ih =>
      intro read hmem
      rw [Text.readNaturalFrom?]
      cases hd : Text.digitValue? 10 d with
      | none => rfl
      | some value =>
        rcases List.mem_cons.mp hmem with rfl | hmem
        · exact absurd (hd.symm.trans hvalue) (Option.some_ne_none value)
        · exact ih _ hmem
  rw [Text.readNatural?.eq_def]
  split
  · rfl
  · exact hfrom s 0 hc

/-- A numeral with a decimal point or an exponent is no integer to any base. -/
theorem magnitude?_of_hasMark {s : List Char} (hchars : ∀ c ∈ s, Binary64.isNumeralChar c = true)
    (hmark : Binary64.HasMark s) : Plain.magnitude? s = none := by
  -- a prefix for another base has a letter that no numeral has
  have hletter : ∀ c rest, Binary64.isNumeralChar c = false → s ≠ '0' :: c :: rest := by
    rintro c rest hc rfl
    rw [hchars c (by simp)] at hc
    exact nomatch hc
  unfold Plain.magnitude?
  split
  · exact absurd rfl (hletter _ _ (by decide))
  · exact absurd rfl (hletter _ _ (by decide))
  · exact absurd rfl (hletter _ _ (by decide))
  · split
    · rfl
    · exact readNatural?_of_hasMark hmark

/-- The mark of a numeral stands behind any other character that it begins with. -/
theorem hasMark_of_cons {c : Char} {s : List Char} (h : Binary64.HasMark (c :: s))
    (hpoint : '.' ≠ c) (hexponent : 'e' ≠ c) : Binary64.HasMark s := by
  rcases h with hmem | hmem
  · exact .inl ((List.mem_cons.mp hmem).resolve_left hpoint)
  · exact .inr ((List.mem_cons.mp hmem).resolve_left hexponent)

/-- A numeral with a mark is no run of digits. -/
theorem not_all_isDigit_of_hasMark {s : List Char} (h : Binary64.HasMark s) :
    s.all Text.isDigit = false := by
  rw [List.all_eq_false]
  rcases h with hmem | hmem
  · exact ⟨_, hmem, by decide⟩
  · exact ⟨_, hmem, by decide⟩

/-- Only runs of digits count as padded with zeros. -/
theorem isZeroPadded_of_hasMark {s : List Char} (h : Binary64.HasMark (Plain.unsigned s)) :
    Plain.isZeroPadded s = false := by
  unfold Plain.isZeroPadded
  split
  · rename_i c rest heq
    rw [heq] at h
    exact not_all_isDigit_of_hasMark (hasMark_of_cons h (by decide) (by decide))
  · rfl

/-- A numeral with a mark is no integer and is not padded with zeros. So it is left to be read as a
floating number. -/
theorem not_integer_of_hasMark {s : List Char} (h : Binary64.Numeral s)
    (hmark : Binary64.HasMark s) :
    Plain.integer? s = none ∧ Plain.isZeroPadded s = false := by
  cases h with
  | @positive s hs =>
    obtain ⟨c, rest, rfl, hc⟩ := hs.exists_cons
    -- the sign is taken off first, and a digit is not one
    have hplus : c ≠ '+' := isDigit_ne hc (by decide)
    have hminus : c ≠ '-' := isDigit_ne hc (by decide)
    constructor
    · unfold Plain.integer?
      split
      · exact absurd (List.cons.inj ‹_›).1 hplus
      · exact absurd (List.cons.inj ‹_›).1 hminus
      · rw [magnitude?_of_hasMark hs.chars hmark, Option.map_none]
    · refine isZeroPadded_of_hasMark ?_
      rwa [Plain.unsigned, if_neg (by simp [Plain.isSign, hplus, hminus])]
  | @negative t ht =>
    have hmark : Binary64.HasMark t := hasMark_of_cons hmark (by decide) (by decide)
    have hinteger : Plain.integer? ('-' :: t) = none := by
      rw [Plain.integer?, magnitude?_of_hasMark ht.chars hmark]
      rfl
    exact ⟨hinteger, isZeroPadded_of_hasMark hmark⟩

/-- A numeral is read as a literal. -/
theorem float?_of_numeral {s : List Char} (h : Binary64.Numeral s) : Plain.float? s =
    ((Binary64.readLiteral? s).map Binary64.Literal.value).filter Binary64.isFinite := by
  -- no word for a special value begins like a numeral
  cases h with
  | positive hs =>
    obtain ⟨c, rest, rfl, hc⟩ := hs.exists_cons
    have hplus : c ≠ '+' := isDigit_ne hc (by decide)
    have hminus : c ≠ '-' := isDigit_ne hc (by decide)
    have hpoint : c ≠ '.' := isDigit_ne hc (by decide)
    simp [Plain.float?, hplus, hminus, hpoint]
  | negative hs =>
    obtain ⟨c, rest, rfl, hc⟩ := hs.exists_cons
    have hpoint : c ≠ '.' := isDigit_ne hc (by decide)
    simp [Plain.float?, hpoint]

/-- Printing and reading are inverse for all finite numbers in their only form. -/
theorem readsBack_of_canonical {x : Binary64} (hcanonical : x.Canonical)
    (hfinite : x.isFinite = true) : ReadsBack x := by
  cases x with
  | nan => exact nomatch hfinite
  | infinite negative => exact nomatch hfinite
  | finite negative significand exponent =>
    rw [ReadsBack, float?_of_numeral (floatLayout.numeral_text negative significand exponent).1,
      Binary64.readLiteral?_text rfl hcanonical]
    rfl

/-- A leaf in its only form can be read back. With this the hypothesis on floating point numbers,
that printing and reading are inverse, is met by all numbers that values can be computed for. -/
theorem readable_of_canonical {v : Scalar} (h : v.Canonical) : Readable v := by
  cases v with
  | wide n => exact h
  | float x => exact readsBack_of_canonical h
  | text _ => trivial
  | int _ => trivial
  | bool _ => trivial

/-- The text of a finite number stands for the number, if reading is inverse to printing. -/
theorem ofText_of_readsBack {x : Binary64} (hfinite : x.isFinite = true) (h : ReadsBack x) :
    Plain.Value.ofText (floatLayout.text x) = .leaf (.float x) := by
  cases x with
  | nan => exact nomatch hfinite
  | infinite negative => exact nomatch hfinite
  | finite negative significand exponent =>
    obtain ⟨hnumeral, hmark⟩ := floatLayout.numeral_text negative significand exponent
    -- it has a point or an exponent, so it is no integer, and no word consists of such characters
    obtain ⟨hinteger, hpadded⟩ := not_integer_of_hasMark hnumeral (hmark rfl)
    obtain ⟨hword, hbool⟩ := not_word_of_numeral hnumeral
    rw [ReadsBack] at h
    simp only [Plain.Value.ofText, hword, Bool.false_eq_true, if_false, hbool, hinteger,
      Plain.Value.ofOther, hpadded, h]

/-! ## Whole leaves -/

/-- A leaf that is written without quotes stays plain. -/
theorem staysPlain_leafChars {v : Scalar} (h : leafStyle v = .plain) :
    StaysPlain (leafChars v) := by
  cases v with
  | text s =>
    obtain ⟨htext, hplain⟩ := isText_of_styleOf h
    exact staysPlain_of_allowsPlain (ofText_of_isText htext).2 hplain
  | int v => exact staysPlain_of_numeral (Binary64.numeral_decimalInt _)
  | wide v => exact staysPlain_of_numeral (.positive (Binary64.unsigned_decimal _))
  | float x =>
    cases x with
    -- the words of the special numbers are closed texts
    | nan => decide
    | infinite negative => cases negative <;> decide
    | finite negative significand exponent =>
      exact staysPlain_of_numeral (floatLayout.numeral_text negative significand exponent).1
  | bool b => cases b <;> decide

/-- A leaf that is written without quotes is the value of its text. -/
theorem ofText_leafChars {v : Scalar} (h : Readable v) (hplain : leafStyle v = .plain) :
    Plain.Value.ofText (leafChars v) = .leaf v := by
  cases v with
  | text s =>
    have hvalue := (ofText_of_isText (isText_of_styleOf hplain).1).1
    rwa [String.ofList_toList] at hvalue
  | int v => exact ofText_decimalInt (integerLeaf?_int v)
  | wide v =>
    -- an unsigned number is written as the integer that it is
    have htext : leafChars (.wide v) = Text.decimalInt (v.toNat : Int) := by
      rw [Text.decimalInt, if_neg (by omega), Int.natAbs_natCast]
      rfl
    rw [htext]
    exact ofText_decimalInt (integerLeaf?_wide h)
  | float x =>
    cases x with
    | nan => decide
    | infinite negative => cases negative <;> decide
    | finite negative significand exponent => exact ofText_of_readsBack rfl (h rfl)
  | bool b => cases b <;> decide

/-- A leaf as it is read from its text. -/
def writtenLeaf (v : Scalar) : Leaf := ⟨.none, leafStyle v, String.ofList (leafChars v)⟩

/-- **A leaf is read back** from its style and its text. -/
theorem scalar?_writtenLeaf {v : Scalar} (h : Readable v) : (writtenLeaf v).scalar? = some v := by
  by_cases hstyle : leafStyle v = .plain
  · simp only [writtenLeaf, Leaf.scalar?, Leaf.untagged?, if_pos hstyle, String.toList_ofList,
      ofText_leafChars h hstyle]
  · cases v with
    | text s =>
      -- what is quoted is a text, and only texts are quoted
      have hquoted : (writtenLeaf (.text s)).style ≠ .plain := hstyle
      show Leaf.untagged? (writtenLeaf (.text s)) = some (.text s)
      rw [Leaf.untagged?, if_neg hquoted]
      exact congrArg (fun text => some (Scalar.text text)) String.ofList_toList
    | int _ => exact absurd rfl hstyle
    | wide _ => exact absurd rfl hstyle
    | float _ => exact absurd rfl hstyle
    | bool _ => exact absurd rfl hstyle

/-- No written leaf is taken for a missing value: texts that are empty or look like nothing are
quoted. -/
theorem presence_writtenLeaf {v : Scalar} (h : Readable v) :
    (writtenLeaf v).presence = .present := by
  by_cases hstyle : leafStyle v = .plain
  · have hvalue := ofText_leafChars h hstyle
    cases hnull : (leafChars v).isEmpty || Plain.isNull (leafChars v) with
    -- a text that would be read as nothing is not written plainly
    | true =>
      rw [Plain.Value.ofText, hnull] at hvalue
      exact absurd hvalue (by simp)
    | false =>
      simp only [writtenLeaf, Leaf.presence, hstyle, String.toList_ofList, hnull]
      simp
  · simp only [writtenLeaf, Leaf.presence, ne_eq, hstyle, not_false_eq_true, if_true]

/-- An integer is read back where one is wanted. -/
theorem integer?_writtenLeaf (i : Int64) : (writtenLeaf (.int i)).integer? = some i := by
  simp only [writtenLeaf, leafStyle, leafChars, Scalar.toChars, Leaf.integer?, Leaf.isTyped,
    String.toList_ofList, integer?_decimalInt, Option.bind_some, integerLeaf?_int]
  rfl

/-- A floating point number is read back where one is wanted. -/
theorem float?_writtenLeaf {x : Binary64} (h : Readable (.float x)) :
    (writtenLeaf (.float x)).float? = some x := by
  simp only [writtenLeaf, leafStyle, leafChars, Leaf.float?, Leaf.isTyped, String.toList_ofList]
  cases x with
  | nan => decide
  | infinite negative => cases negative <;> decide
  | finite negative significand exponent => exact h rfl

/-- A truth value is read back where one is wanted. -/
theorem bool?_writtenLeaf (b : Bool) : (writtenLeaf (.bool b)).bool? = some b := by
  cases b <;> decide

end Yaml
end ModelGraph
