import ModelGraph.Json.Printer
import ModelGraph.Json.Reader
import ModelGraph.Proofs.Yaml.Leaf

/-!
# JSON leaves read back

The text of a leaf is one token, whatever follows it that cannot belong to a number, and the leaf in
this token has the value that was written. Texts keep every character, integers are exact, and of
floating point numbers it is asked that they read back.

- `token?_leafText`: the token of a leaf.
- `scalar?_writtenLeaf`: its value.
-/

namespace ModelGraph.Json

open Text (isDigit_ne)
open Binary64 (isNumeralChar isNumeralChar_ne isNumeralChar_of_isDigit)

/-! ## Numbers -/

/-- What comes next is no part of a number. A number is as long as it can be, so its text is read
back only where it is followed by something else: a comma, a bracket, a line break or the end. -/
def EndsNumber (rest : List Char) : Prop :=
  ∀ c ∈ rest.head?, isNumeralChar c = false ∧ c ≠ 'E'

theorem EndsNumber.not_isDigit {c : Char} {rest : List Char} (h : EndsNumber (c :: rest)) :
    Text.isDigit c = false := by
  cases hc : Text.isDigit c with
  | false => rfl
  | true => exact absurd ((isNumeralChar_of_isDigit hc).symm.trans (h c rfl).1) (by decide)

theorem EndsNumber.ne {c : Char} {rest : List Char} (h : EndsNumber (c :: rest)) {d : Char}
    (hd : isNumeralChar d = true) : c ≠ d :=
  (isNumeralChar_ne hd (h c rfl).1).symm

section

variable {rest : List Char} (h : EndsNumber rest)

include h

/-- A run of digits ends where the number ends. The same holds of every other part of a number, and
all of these laws have the same form: what follows is left over. -/
theorem digits?_append (s : List Char) :
    digits? (s ++ rest) = (digits? s).map fun p => (p.1, p.2 ++ rest) := by
  have htake : rest.takeWhile Text.isDigit = [] ∧ rest.dropWhile Text.isDigit = rest := by
    cases rest with
    | nil => exact ⟨rfl, rfl⟩
    | cons c others => simp [h.not_isDigit]
  -- by induction on the digits of the number, with what follows it in the empty case
  have hsplit : (s ++ rest).takeWhile Text.isDigit = s.takeWhile Text.isDigit ∧
      (s ++ rest).dropWhile Text.isDigit = s.dropWhile Text.isDigit ++ rest := by
    induction s with
    | nil => exact ⟨htake.1, htake.2⟩
    | cons c others ih =>
      rw [List.cons_append, List.takeWhile_cons, List.takeWhile_cons, List.dropWhile_cons,
        List.dropWhile_cons, ih.1, ih.2]
      split <;> exact ⟨rfl, rfl⟩
  rw [digits?, digits?, hsplit.1, hsplit.2]
  cases s.takeWhile Text.isDigit <;> rfl

theorem digits?_eq_none : digits? rest = none := digits?_append h []

/-- So does the part in front of the point, which is a single zero or does not begin with one. -/
theorem whole?_append (s : List Char) :
    whole? (s ++ rest) = (whole? s).map fun p => (p.1, p.2 ++ rest) := by
  cases s with
  | nil =>
    cases rest with
    | nil => rfl
    | cons c others =>
      have hzero : c ≠ '0' := h.ne (by decide)
      rw [List.nil_append, whole?, digits?_eq_none h]
      · rfl
      · exact fun tail heq => hzero (List.cons.inj heq).1
  | cons c others =>
    by_cases hzero : c = '0'
    -- a zero is taken alone, and any other digit begins a run
    · rw [hzero]
      rfl
    · rw [List.cons_append, whole?, whole?, ← List.cons_append, digits?_append h]
      · exact fun tail heq => hzero (List.cons.inj heq).1
      · exact fun tail heq => hzero (List.cons.inj heq).1

/-- So does the part from the point on, if there is one. -/
theorem fraction?_append (s : List Char) :
    fraction? (s ++ rest) = (fraction? s).map fun p => (p.1, p.2 ++ rest) := by
  cases s with
  | nil =>
    cases rest with
    | nil => rfl
    | cons c others =>
      have hpoint : c ≠ '.' := h.ne (by decide)
      rw [List.nil_append, fraction?]
      · rfl
      · exact fun tail heq => hpoint (List.cons.inj heq).1
  | cons c others =>
    by_cases hpoint : c = '.'
    -- behind a point there must be digits, and without one nothing is read
    · rw [hpoint, List.cons_append, fraction?, fraction?, digits?_append h]
      cases digits? others <;> rfl
    · rw [List.cons_append, fraction?, fraction?]
      · rfl
      · exact fun tail heq => hpoint (List.cons.inj heq).1
      · exact fun tail heq => hpoint (List.cons.inj heq).1

omit h in
/-- Without a sign the part of an exponent behind its mark is a run of digits. -/
theorem exponent?_unsigned {c : Char} (hminus : c ≠ '-') (hplus : c ≠ '+') (t : List Char) :
    exponent? ('e' :: c :: t) = (digits? (c :: t)).map fun p => (some (false, p.1), p.2) := by
  simp [exponent?, hminus, hplus]

theorem map_digits?_append (negative : Bool) (t : List Char) :
    ((digits? (t ++ rest)).map fun p => (some (negative, p.1), p.2)) =
      ((digits? t).map fun p => (some (negative, p.1), p.2)).map fun p => (p.1, p.2 ++ rest) := by
  rw [digits?_append h]
  cases digits? t <;> rfl

/-- The part of an exponent behind its mark, up to where the number ends. -/
theorem exponent?_mark_append {mark : Char} (hmark : mark = 'e' ∨ mark = 'E') (s : List Char) :
    exponent? (mark :: (s ++ rest)) = (exponent? (mark :: s)).map fun p => (p.1, p.2 ++ rest) := by
  have he : exponent? ('e' :: (s ++ rest)) =
      (exponent? ('e' :: s)).map fun p => (p.1, p.2 ++ rest) := by
    cases s with
    | nil =>
      cases rest with
      | nil => rfl
      | cons c others =>
        rw [List.nil_append, exponent?_unsigned (h.ne (by decide)) (h.ne (by decide)),
          digits?_eq_none h]
        rfl
    | cons c others =>
      by_cases hminus : c = '-'
      · rw [hminus]
        exact map_digits?_append h true others
      · by_cases hplus : c = '+'
        · rw [hplus]
          exact map_digits?_append h false others
        · rw [List.cons_append, exponent?_unsigned hminus hplus, exponent?_unsigned hminus hplus]
          exact map_digits?_append h false (c :: others)
  -- both marks are read alike
  rcases hmark with rfl | rfl
  · exact he
  · exact he

/-- So does the exponent, if there is one. -/
theorem exponent?_append (s : List Char) :
    exponent? (s ++ rest) = (exponent? s).map fun p => (p.1, p.2 ++ rest) := by
  -- without a mark in front there is no exponent, and nothing is read
  have hnone :
      ∀ t : List Char, (∀ c ∈ t.head?, c ≠ 'e' ∧ c ≠ 'E') → exponent? t = some (none, t) := by
    intro t ht
    cases t with
    | nil => rfl
    | cons c others => simp [exponent?, (ht c rfl).1, (ht c rfl).2]
  cases s with
  | nil =>
    rw [List.nil_append, hnone rest fun c hc => ?_, hnone [] fun c hc => absurd hc (by simp)]
    · rfl
    · refine ⟨?_, (h c hc).2⟩
      exact (isNumeralChar_ne (by decide) (h c hc).1).symm
  | cons c others =>
    by_cases hmark : c = 'e' ∨ c = 'E'
    · exact exponent?_mark_append h hmark others
    · rw [not_or] at hmark
      rw [List.cons_append, hnone (c :: (others ++ rest)) fun d hd => ?_,
        hnone (c :: others) fun d hd => ?_]
      · rfl
      · exact Option.some.inj hd ▸ hmark
      · exact Option.some.inj hd ▸ hmark

/-- So do the parts together, of which each is followed by the next one. -/
theorem magnitude?_append (negative : Bool) (s : List Char) :
    magnitude? negative (s ++ rest) = (magnitude? negative s).map fun p => (p.1, p.2 ++ rest) := by
  rw [magnitude?, magnitude?, whole?_append h]
  -- part by part: what follows the number is what is left over in the end
  cases whole? s with
  | none => rfl
  | some whole =>
    simp only [Option.map_some, Option.bind_eq_bind, Option.bind_some, fraction?_append h]
    cases fraction? whole.2 with
    | none => rfl
    | some fraction =>
      simp only [Option.map_some, Option.bind_some, exponent?_append h]
      cases exponent? fraction.2 <;> rfl

/-- **A number is read up to where it ends**, whatever follows. Each of its three parts takes as
much as it can, so the rest must not begin with what could belong to it. -/
theorem numeral?_append (s : List Char) :
    numeral? (s ++ rest) = (numeral? s).map fun p => (p.1, p.2 ++ rest) := by
  cases s with
  | nil =>
    cases rest with
    | nil => rfl
    | cons c others =>
      have hminus : c ≠ '-' := h.ne (by decide)
      have hplain : numeral? (c :: others) = magnitude? false (c :: others) := by
        rw [numeral?]
        exact fun tail heq => hminus (List.cons.inj heq).1
      rw [List.nil_append, hplain]
      exact magnitude?_append h false []
  | cons c others =>
    -- a minus sign is taken away, and the magnitude behind it ends as it did without it
    by_cases hminus : c = '-'
    · rw [hminus]
      exact magnitude?_append h true others
    · -- without a minus sign it is read as a magnitude at once
      have hplain : ∀ t, numeral? (c :: t) = magnitude? false (c :: t) := by
        intro t
        rw [numeral?]
        exact fun tail heq => hminus (List.cons.inj heq).1
      rw [List.cons_append, hplain, hplain]
      exact magnitude?_append h false (c :: others)

end

/-- A number at the front is one token, since no other token begins with a digit or a minus sign. -/
theorem token?_numeral {s : List Char} (hs : Binary64.Numeral s) (rest : List Char) :
    token? (s ++ rest) = (numeral? (s ++ rest)).map fun (n, rest) => (.leaf (.number n), rest) := by
  obtain ⟨c, others, hcons, hc⟩ :
      ∃ c others, s = c :: others ∧ (Text.isDigit c = true ∨ c = '-') := by
    cases hs with
    | positive hs =>
      obtain ⟨c, others, rfl, hc⟩ := hs.exists_cons
      exact ⟨c, others, rfl, .inl hc⟩
    | negative hs => exact ⟨_, _, rfl, .inr rfl⟩
  have hne : ∀ d, Text.isDigit d = false → d ≠ '-' → c ≠ d := by
    intro d hd hminus
    rcases hc with hc | rfl
    · exact isDigit_ne hc hd
    · exact hminus.symm
  -- the first character is none that another token begins with
  rw [hcons, List.cons_append, token?]
  all_goals
    intros
    rename_i heq
    exact absurd (List.cons.inj heq).1 (hne _ (by decide) (by decide))

/-! ## Integers -/

/-- A text of digits only is a single run of them. -/
theorem digits?_of_isDigit {s : List Char} (hs : s ≠ []) (h : ∀ c ∈ s, Text.isDigit c = true) :
    digits? s = some (s, []) := by
  have hsplit : s.takeWhile Text.isDigit = s ∧ s.dropWhile Text.isDigit = [] := by
    have htake : (s ++ []).takeWhile Text.isDigit = s ++ [].takeWhile Text.isDigit :=
      List.takeWhile_append_of_pos h
    have hdrop : (s ++ []).dropWhile Text.isDigit = [].dropWhile Text.isDigit :=
      List.dropWhile_append_of_pos h
    simpa using And.intro htake hdrop
  obtain ⟨c, others, rfl⟩ := List.exists_cons_of_ne_nil hs
  rw [digits?, hsplit.1, hsplit.2]

/-- A decimal text is the whole part of a number: it is never padded with zeros. -/
theorem magnitude?_decimal (negative : Bool) (n : Nat) :
    magnitude? negative (Text.decimal n) = some (⟨negative, Text.decimal n, none, none⟩, []) := by
  have hdigits : ∀ c ∈ Text.decimal n, Text.isDigit c = true :=
    fun c hc => Text.isDigit_of_mem_decimal hc
  have hwhole : whole? (Text.decimal n) = some (Text.decimal n, []) := by
    obtain ⟨c, others, hcons⟩ := List.exists_cons_of_ne_nil (Text.decimal_ne_nil n)
    -- only zero begins with a zero, and then it is all there is
    by_cases hzero : c = '0'
    · have hn : n = 0 := Text.eq_zero_of_decimal n (hzero ▸ hcons)
      rw [hn]
      decide
    · rw [hcons] at hdigits ⊢
      rw [whole?, digits?_of_isDigit (List.cons_ne_nil c others) hdigits]
      exact fun tail heq => hzero (List.cons.inj heq).1
  rw [magnitude?, hwhole]
  rfl

/-- The decimal text of an integer is a number without fraction and exponent. -/
theorem numeral?_decimalInt (i : Int) :
    numeral? (Text.decimalInt i) =
      some (⟨decide (i < 0), Text.decimal i.natAbs, none, none⟩, []) := by
  rw [Text.decimalInt]
  split
  · rename_i hneg
    rw [decide_eq_true hneg]
    exact magnitude?_decimal true i.natAbs
  -- a decimal begins with a digit, so no minus sign is read
  · rename_i hpos
    rw [decide_eq_false hpos, ← magnitude?_decimal]
    obtain ⟨c, others, hcons, hc⟩ := Text.decimal_eq_cons i.natAbs
    rw [hcons, numeral?]
    exact fun tail heq => isDigit_ne hc (by decide) (List.cons.inj heq).1

/-- **An integer that fits is the value of its decimal text.** The kind is that of the leaf too:
signed as long as it fits, and unsigned only above that. -/
theorem scalar?_decimalInt {i : Int} {v : Scalar} (h : Yaml.Plain.integerLeaf? i = some v) :
    Numeral.scalar? ⟨decide (i < 0), Text.decimal i.natAbs, none, none⟩ = some v := by
  have hlow : (Nat.pow 2 63 : Int) = ((Nat.pow 2 63 : Nat) : Int) := rfl
  unfold Yaml.Plain.integerLeaf? at h
  simp only [Numeral.scalar?, Text.decimalValue_decimal, Option.isNone_none, Bool.and_self, if_true]
  -- the sign is read apart from the digits, so the bounds are those of the magnitude
  by_cases hneg : i < 0
  · rw [if_neg (by omega)] at h
    split at h
    · rw [decide_eq_true hneg, if_pos rfl, if_pos (by omega), ← h]
      congr 3
      omega
    · exact absurd h (by simp)
  · rw [if_pos (by omega)] at h
    split at h
    · have hnat : i.natAbs = i.toNat := by omega
      rw [decide_eq_false hneg, if_neg (by decide), hnat, if_pos (by omega), ← h]
    · exact absurd h (by simp)

/-! ## Texts -/

/-- A control character is the number of its code. -/
theorem hex4?_lowerHex : ∀ n < 0x20,
    hex4? (Text.lowerHexDigit (n / 16 / 16 / 16 % 16)) (Text.lowerHexDigit (n / 16 / 16 % 16))
      (Text.lowerHexDigit (n / 16 % 16)) (Text.lowerHexDigit (n % 16)) = some n := by
  decide

/-- Every character is read back from its escaped form, be it a short escape, the number of its code
or the character itself. -/
theorem pieces?_escaped (c : Char) (rest : List Char) :
    pieces? (escaped c ++ rest) = (pieces? rest).map fun p => (.char c :: p.1, p.2) := by
  by_cases hshort : c ∈ ['"', '\\', '\x08', '\x0c', '\n', '\r', '\t']
  · simp only [List.mem_cons, List.not_mem_nil, or_false] at hshort
    rcases hshort with rfl | rfl | rfl | rfl | rfl | rfl | rfl <;> rfl
  · simp only [List.mem_cons, List.not_mem_nil, or_false, not_or] at hshort
    obtain ⟨hquote, hbackslash, h8, h12, h10, h13, h9⟩ := hshort
    simp only [escaped, hquote, hbackslash, h8, h12, h10, h13, h9, if_false]
    -- a control character is escaped by its code, and any other one stands for itself
    by_cases hcontrol : c.toNat < 0x20
    · have hofCode : Piece.ofCode c.toNat = .char c := by
        have hlow : ¬0xD800 ≤ c.toNat := by omega
        have hlow' : ¬0xDC00 ≤ c.toNat := by omega
        simp [Piece.ofCode, isHighSurrogate, isLowSurrogate, hlow, hlow', Char.ofNat_toNat]
      rw [if_pos hcontrol]
      have hhex := hex4?_lowerHex _ hcontrol
      have hdigits : '\\' :: 'u' :: Text.lowerHex 4 c.toNat ++ rest =
          '\\' :: 'u' :: Text.lowerHexDigit (c.toNat / 16 / 16 / 16 % 16) ::
            Text.lowerHexDigit (c.toNat / 16 / 16 % 16) :: Text.lowerHexDigit (c.toNat / 16 % 16) ::
            Text.lowerHexDigit (c.toNat % 16) :: rest := rfl
      rw [hdigits, pieces?]
      simp only [hhex, hofCode]
    · rw [if_neg hcontrol, List.singleton_append, pieces?]
      · rw [if_neg (by simp [hcontrol, hbackslash])]
      all_goals
        intros
        simp_all

/-- A text is read back from its escaped characters up to the closing quote. -/
theorem pieces?_flatMap_escaped (s rest : List Char) :
    pieces? (s.flatMap escaped ++ '"' :: rest) = some (s.map .char, rest) := by
  induction s with
  | nil => rfl
  | cons c others ih => rw [List.flatMap_cons, List.append_assoc, pieces?_escaped, ih]; rfl

/-- Pieces that are characters need not be put together from halves. -/
theorem joinPieces?_char (s : List Char) : joinPieces? (s.map .char) = some s := by
  induction s with
  | nil => rfl
  | cons c others ih => rw [List.map_cons, joinPieces?, ih]; rfl

/-- A text in quotes is one token. -/
theorem token?_stringText (s rest : List Char) :
    token? (stringText s ++ rest) = some (.leaf (.string (some (String.ofList s))), rest) := by
  have hquoted : stringText s ++ rest = '"' :: (s.flatMap escaped ++ '"' :: rest) := by
    simp [stringText]
  rw [hquoted, token?, pieces?_flatMap_escaped, Option.map_some]
  show some (Token.leaf (.string ((joinPieces? (s.map .char)).map String.ofList)), rest) = _
  rw [joinPieces?_char]
  rfl

/-! ## Leaves -/

/-- Printing and reading are inverse for a number. For floating point numbers this is an assumption:
the reader rounds twice, so there are numbers for which it fails. -/
def ReadsBack (x : Binary64) : Prop :=
  ∃ n, numeral? (floatLayout.text x) = some (n, []) ∧ n.scalar? = some (.float x)

/-- An unsigned number stands only for what a signed one cannot hold, and a floating point number
is finite and reads back. -/
def Readable : Scalar → Prop
  | .wide n => Nat.pow 2 63 ≤ n.toNat
  | .float x => x.isFinite = true ∧ ReadsBack x
  | _ => True

/-- The leaf that the text of a number is read as. -/
def numberLeaf (s : List Char) : Leaf :=
  match numeral? s with
  | some (n, _) => .number n
  | none => .null

/-- The leaf that the text of a leaf is read as. It is what stands in the source of events for the
leaf, and what its value is taken from. -/
def writtenLeaf : Scalar → Leaf
  | .text s => .string (some s)
  | .bool b => .bool b
  | .int i => numberLeaf (leafText (.int i))
  | .wide n => numberLeaf (leafText (.wide n))
  | .float x => numberLeaf (leafText (.float x))

/-- The text of a number is read as the number. Signed, unsigned and floating point leaves all have
such a number, and what is proved below of leaves that are numbers follows from this. -/
structure IsNumber (v : Scalar) (n : Numeral) : Prop where
  text : numeral? (leafText v) = some (n, [])
  value : n.scalar? = some v
  leaf : writtenLeaf v = .number n
  shape : Binary64.Numeral (leafText v)

/-- A leaf that is an integer is read as the number in its decimal text. -/
theorem isNumber_of_integerLeaf? {i : Int} {v : Scalar} (h : Yaml.Plain.integerLeaf? i = some v)
    (htext : leafText v = Text.decimalInt i) (hleaf : writtenLeaf v = numberLeaf (leafText v)) :
    IsNumber v ⟨decide (i < 0), Text.decimal i.natAbs, none, none⟩ where
  text := by rw [htext, numeral?_decimalInt]
  value := scalar?_decimalInt h
  leaf := by rw [hleaf, numberLeaf, htext, numeral?_decimalInt]
  shape := by rw [htext]; exact Binary64.numeral_decimalInt i

theorem isNumber_int (i : Int64) : ∃ n, IsNumber (.int i) n :=
  ⟨_, isNumber_of_integerLeaf? (Yaml.integerLeaf?_int i) rfl rfl⟩

theorem isNumber_wide {n : UInt64} (h : Readable (.wide n)) : ∃ m, IsNumber (.wide n) m := by
  have htext : leafText (.wide n) = Text.decimalInt (n.toNat : Int) := by
    rw [Text.decimalInt, if_neg (by omega), Int.natAbs_natCast]
    rfl
  exact ⟨_, isNumber_of_integerLeaf? (Yaml.integerLeaf?_wide h) htext rfl⟩

theorem isNumber_float {x : Binary64} (h : Readable (.float x)) : ∃ n, IsNumber (.float x) n := by
  obtain ⟨hfinite, n, hnumeral, hvalue⟩ := h
  -- numbers that are not finite have no text in this format
  cases x with
  | nan => exact absurd hfinite (by decide)
  | infinite negative => exact absurd hfinite (by simp [Binary64.isFinite])
  | finite negative significand exponent =>
    have hleaf : writtenLeaf (.float (.finite negative significand exponent)) = .number n := by
      rw [writtenLeaf, numberLeaf, leafText, hnumeral]
      simp
    exact ⟨n, hnumeral, hvalue, hleaf, (floatLayout.numeral_text negative significand exponent).1⟩

/-- **The text of a leaf is one token**, up to what cannot belong to a number. Words and quoted
texts end by themselves. -/
theorem token?_leafText {v : Scalar} (h : Readable v) {rest : List Char} (hrest : EndsNumber rest) :
    token? (leafText v ++ rest) = some (.leaf (writtenLeaf v), rest) := by
  have number : ∀ v, (∃ n, IsNumber v n) →
      token? (leafText v ++ rest) = some (.leaf (writtenLeaf v), rest) := by
    rintro v ⟨n, hn⟩
    rw [token?_numeral hn.shape, numeral?_append hrest, hn.text, hn.leaf]
    rfl
  -- a text is in quotes, and a truth value is a word, so neither can go on behind its end
  cases v with
  | text s =>
    have htoken := token?_stringText s.toList rest
    rw [String.ofList_toList] at htoken
    exact htoken
  | bool b => cases b <;> rfl
  | int i => exact number _ (isNumber_int i)
  | wide n => exact number _ (isNumber_wide h)
  | float x => exact number _ (isNumber_float h)

/-- **The value of a leaf is read back.** -/
theorem scalar?_writtenLeaf {v : Scalar} (h : Readable v) : (writtenLeaf v).scalar? = some v := by
  have number : ∀ v, (∃ n, IsNumber v n) → (writtenLeaf v).scalar? = some v := by
    rintro v ⟨n, hn⟩
    rw [hn.leaf]
    exact hn.value
  cases v with
  | text s => rfl
  | bool b => rfl
  | int i => exact number _ (isNumber_int i)
  | wide n => exact number _ (isNumber_wide h)
  | float x => exact number _ (isNumber_float h)

/-- An integer is read back where one is wanted. -/
theorem integer?_writtenLeaf (i : Int64) : (writtenLeaf (.int i)).integer? = some i := by
  obtain ⟨n, hn⟩ := isNumber_int i
  rw [hn.leaf, Leaf.integer?, Numeral.integer?, hn.value]

/-- A floating point number is read back where one is wanted. -/
theorem float?_writtenLeaf {x : Binary64} (h : Readable (.float x)) :
    (writtenLeaf (.float x)).float? = some x := by
  obtain ⟨n, hn⟩ := isNumber_float h
  rw [hn.leaf, Leaf.float?, hn.value]
  rfl

/-- No written leaf is the word for nothing. -/
theorem writtenLeaf_ne_null {v : Scalar} (h : Readable v) : writtenLeaf v ≠ .null := by
  have number : ∀ v, (∃ n, IsNumber v n) → writtenLeaf v ≠ .null := by
    rintro v ⟨n, hn⟩ hnull
    exact absurd (hn.leaf.symm.trans hnull) (by simp)
  cases v with
  | text s => simp [writtenLeaf]
  | bool b => simp [writtenLeaf]
  | int i => exact number _ (isNumber_int i)
  | wide n => exact number _ (isNumber_wide h)
  | float x => exact number _ (isNumber_float h)

end ModelGraph.Json
