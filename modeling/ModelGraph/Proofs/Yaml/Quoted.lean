import Mathlib.Logic.Basic
import ModelGraph.Proofs.Text.Digits
import ModelGraph.Proofs.Yaml.Char

/-!
# Quoted scalars read back

A text written in single or in double quotes is read as the same text, whatever follows the closing
quote.

- `single_singleBody`: single quotes, for the texts they may hold.
- `double_escaped`: double quotes, for every text.

In single quotes the line breaks of a text are separators of lines or of paragraphs, which white
space around them cannot change as long as it has no spaces of its own.
-/

namespace ModelGraph.Yaml

/-! ## Pending white space -/

/-- Where no white space is pending, none comes before the next character. -/
@[simp]
theorem Gap.text_none : Gap.none.text = [] := rfl

/-- A blank joins the text that is pending, unless a line has ended. -/
theorem Gap.text_addBlank {g : Gap} (h : g.broken = false) (c : Char) :
    (g.addBlank c).text = g.text ++ [c] := by
  simp [Gap.addBlank, Gap.text, h]

/-- A blank does not end a line. -/
theorem Gap.broken_addBlank {g : Gap} (c : Char) : (g.addBlank c).broken = g.broken := by
  unfold Gap.addBlank
  split <;> simp_all

/-! ## Pairs of characters -/

/-- A text without a pair has none behind its first character, and its first two characters are
none. -/
theorem hasPair_cons_false {p q : Char → Bool} {c : Char} {s : List Char}
    (h : hasPair p q (c :: s) = false) :
    hasPair p q s = false ∧ (p c = true → s.head?.any q = false) := by
  cases s with
  | nil => exact ⟨rfl, fun _ => rfl⟩
  | cons d rest =>
    simp only [hasPair, Bool.or_eq_false_iff, Bool.and_eq_false_iff] at h
    refine ⟨h.2, fun hp => ?_⟩
    rcases h.1 with hc | hd
    · simp [hp] at hc
    · simpa using hd

/-! ## Single quotes -/

/-- White space that is pending in front of the rest of a text in single quotes: nothing of it is
lost, whether the rest begins a line or not. -/
inductive Gap.Kept : Gap → Bool → List Char → Prop where
  | blank {g : Gap} {s : List Char} (broken : g.broken = false)
      (head : g.blanks ≠ [] → s.head?.any isBreak = false) : Kept g false s
  | broken {g : Gap} {s : List Char} (broken : g.broken = true) (first : g.first ≠ ['\n'])
      (head : s.head?.any isSpace = false) : Kept g true s

/-- A break of a kind of its own is kept, and so are the breaks behind it. -/
theorem Gap.Kept.addBreak {g : Gap} {afterBreak : Bool} {c : Char} {s : List Char}
    (h : g.Kept afterBreak (c :: s)) (hline : isBreak c = true) (hfeed : c ≠ '\n')
    (hhead : s.head?.any isSpace = false) :
    (g.addBreak [c]).Kept true s ∧ (g.addBreak [c]).text = g.text ++ [c] := by
  have hfirst : [c] ≠ ['\n'] := fun h => hfeed (List.cons.inj h).1
  cases h with
  | blank hopen hblanks =>
    -- blanks in front of a break would be dropped, so there must be none
    have hnone : g.blanks = [] := by
      by_cases hne : g.blanks = []
      · exact hne
      · simpa [hline] using hblanks hne
    refine ⟨.broken ?_ ?_ hhead, ?_⟩ <;> simp [Gap.addBreak, Gap.text, hopen, hnone, hfirst]
  | broken hopen hkind _ =>
    refine ⟨.broken ?_ ?_ hhead, ?_⟩ <;> simp [Gap.addBreak, Gap.text, hopen, hkind]

/-- Reading in single quotes where neither a pair of quotes nor a pair of breaks stands. -/
theorem single_cons {column : Nat} {gap : Gap} {c : Char} {rest : List Char} (hreturn : c ≠ '\r')
    (hquote : c = '\'' → rest.head? ≠ some '\'') :
    single column gap (c :: rest) =
      if isBlank c then single (column + 1) (gap.addBlank c) rest
      else if isBreak c then single 0 (gap.addBreak (readBreak c)) rest
      else if column = 0 && isDocumentMark (c :: rest) then none
      else if c = '\'' then some (gap.text, rest)
      else before (gap.text ++ [c]) (single (column + 1) Gap.none rest) := by
  apply single.eq_4
  · intro r hc _
    exact hreturn hc
  · rintro r hc rfl
    exact hquote hc rfl

/-- Spaces behind a line break are dropped. -/
theorem single_spaces {gap : Gap} (h : gap.broken = true) (n column : Nat) (rest : List Char) :
    single column gap (spaces n ++ rest) = single (column + n) gap rest := by
  induction n generalizing column with
  | zero => rfl
  | succ n ih =>
    have hblank : gap.addBlank ' ' = gap := by simp [Gap.addBlank, h]
    rw [spaces, List.replicate_succ, List.cons_append,
      single_cons (by decide) fun h => absurd h (by decide), if_pos (by decide), hblank, ← spaces,
      ih]
    congr 1
    omega

/-- The closing quote. -/
theorem single_close {column : Nat} {gap : Gap} {rest : List Char}
    (hcolumn : 0 < column) (hrest : rest.head? ≠ some '\'') :
    single column gap ('\'' :: rest) = some (gap.text, rest) := by
  have hzero : column ≠ 0 := by omega
  rw [single_cons (by decide) fun _ => hrest]
  simp [isBlank, isBreak, hzero]

/-- A character in the middle of a line, with quotes doubled. -/
theorem single_char {column : Nat} {gap : Gap} {c : Char} (s : List Char)
    (hcolumn : 0 < column) (hblank : isBlank c = false) (hbreak : isBreak c = false) :
    ∃ column' > 0, single column gap ((if c = '\'' then ['\'', '\''] else [c]) ++ s) =
      before (gap.text ++ [c]) (single column' Gap.none s) := by
  have hzero : column ≠ 0 := by omega
  by_cases hc : c = '\''
  · subst hc
    exact ⟨column + 2, by omega, by simp [single]⟩
  -- a carriage return is a break
  · have hreturn : c ≠ '\r' := by
      rintro rfl
      exact absurd hbreak (by decide)
    refine ⟨column + 1, by omega, ?_⟩
    rw [if_neg hc, List.singleton_append, single_cons hreturn fun h => absurd h hc]
    simp [hblank, hbreak, hzero, hc]

/-- A break of a text in single quotes becomes pending. -/
theorem single_singleBody_break {indent column : Nat} {gap : Gap} {afterBreak : Bool} {c : Char}
    (hprintable : isPrintable c = true) (hbreak : isBreak c = true) (s rest : List Char) :
    single column gap (singleBody indent afterBreak (c :: s) ++ rest) =
      single 0 (gap.addBreak [c]) (singleBody indent true s ++ rest) := by
  have hreturn : c ≠ '\r' := fun h => absurd (h ▸ hprintable) (by decide)
  have hquote : c ≠ '\'' := fun h => absurd (h ▸ hbreak) (by decide)
  rw [singleBody, if_pos hbreak, List.cons_append, single_cons hreturn fun h => absurd h hquote,
    if_neg (by simp [not_isBlank_of_isBreak hbreak]), if_pos hbreak,
    readBreak_of_isPrintable hprintable hbreak]

/-- A space of a text in single quotes becomes pending. None stands at the beginning of a line. -/
theorem single_singleBody_space {indent column : Nat} {gap : Gap} (s rest : List Char) :
    single column gap (singleBody indent false (' ' :: s) ++ rest) =
      single (column + 1) (gap.addBlank ' ') (singleBody indent false s ++ rest) := by
  have hbreak : isBreak ' ' = false := by decide
  simp only [singleBody, Bool.false_eq_true, if_false, hbreak, List.nil_append, List.cons_append,
    if_neg (show ' ' ≠ '\'' by decide)]
  rw [single_cons (by decide) fun h => absurd h (by decide), if_pos (by decide)]

/-- Any other character of a text in single quotes, behind the indentation of its line if it is the
first one there. What is pending in front of it is text. -/
theorem single_singleBody_char {indent column : Nat} {gap : Gap} {afterBreak : Bool} {c : Char}
    (hblank : isBlank c = false) (hbreak : isBreak c = false) (s rest : List Char)
    (hkept : gap.Kept afterBreak (c :: s)) (hcolumn : afterBreak = false → 0 < column)
    (hindent : afterBreak = true → 0 < indent) :
    ∃ column' > 0, single column gap (singleBody indent afterBreak (c :: s) ++ rest) =
      before (gap.text ++ [c]) (single column' Gap.none (singleBody indent false s ++ rest)) := by
  rw [singleBody, if_neg (by simp [hbreak]), List.append_assoc, List.append_assoc]
  cases hkept with
  | blank => exact single_char _ (hcolumn rfl) hblank hbreak
  -- the indentation at the beginning of the line is dropped again
  | broken hbroken =>
    rw [if_pos rfl, single_spaces hbroken]
    exact single_char _ (Nat.lt_of_lt_of_le (hindent rfl) (Nat.le_add_left ..)) hblank hbreak

/-- A text in single quotes behind some pending white space. The text begins a line if
`afterBreak`, and the indentation keeps every later line away from the left edge. -/
theorem single_body {indent : Nat} {rest : List Char} (hrest : rest.head? ≠ some '\'') :
    ∀ (s : List Char) (afterBreak : Bool) (column : Nat) (gap : Gap),
      (∀ c ∈ s, isPrintable c = true) → '\n' ∉ s →
      hasPair isSpace isBreak s = false → hasPair isBreak isSpace s = false →
      gap.Kept afterBreak s → (afterBreak = false → 0 < column) →
      (afterBreak = true ∨ isMultiline s = true → 0 < indent) →
      single column gap (singleBody indent afterBreak s ++ rest) = some (gap.text ++ s, rest) := by
  intro s
  -- the white space in front of a character is kept until something behind it is read
  induction s with
  | nil =>
    intro afterBreak column gap _ _ _ _ hkept hcolumn hindent
    cases hkept with
    | blank => simpa [singleBody] using single_close (hcolumn rfl) hrest
    | broken hbroken =>
      have hpos : 0 < column + indent := by have := hindent (.inl rfl); omega
      rw [singleBody, if_pos rfl, List.append_assoc, single_spaces hbroken, List.singleton_append,
        single_close hpos hrest, List.append_nil]
  | cons c s ih =>
    intro afterBreak column gap hprintable hfeed hbefore hbehind hkept hcolumn hindent
    have hc := hprintable c List.mem_cons_self
    have hs : ∀ d ∈ s, isPrintable d = true := fun d hd => hprintable d (List.mem_cons_of_mem c hd)
    obtain ⟨hspaces, hspace⟩ := hasPair_cons_false hbefore
    obtain ⟨hbreaks, hbreak⟩ := hasPair_cons_false hbehind
    rw [List.mem_cons, not_or] at hfeed
    have hmulti : isBreak c = true ∨ isMultiline s = true → 0 < indent := fun h =>
      hindent (.inr (by rwa [isMultiline, List.any_cons, Bool.or_eq_true]))
    by_cases hline : isBreak c = true
    · obtain ⟨hkept', htext⟩ := hkept.addBreak hline (Ne.symm hfeed.1) (hbreak hline)
      rw [single_singleBody_break hc hline,
        ih true 0 _ hs hfeed.2 hspaces hbreaks hkept' nofun fun _ => hmulti (.inl hline), htext,
        List.append_assoc, List.singleton_append]
    · rw [Bool.not_eq_true] at hline
      have hindent' : false = true ∨ isMultiline s = true → 0 < indent := fun h =>
        hmulti (.inr (h.resolve_left nofun))
      by_cases hblank : isBlank c = true
      · obtain rfl := eq_of_isPrintable_isBlank hc hblank
        cases hkept with
        | broken _ _ hhead => simp [isSpace] at hhead
        | blank hopen =>
          have hkept' : (gap.addBlank ' ').Kept false s :=
            .blank (by rw [Gap.broken_addBlank, hopen]) fun _ => hspace rfl
          rw [single_singleBody_space,
            ih false _ _ hs hfeed.2 hspaces hbreaks hkept' (fun _ => Nat.succ_pos _) hindent',
            Gap.text_addBlank hopen, List.append_assoc, List.singleton_append]
      · rw [Bool.not_eq_true] at hblank
        obtain ⟨column', hcolumn', hread⟩ := single_singleBody_char hblank hline s rest hkept
          hcolumn fun h => hindent (.inl h)
        rw [hread, ih false column' _ hs hfeed.2 hspaces hbreaks
          (.blank rfl fun h => absurd rfl h) (fun _ => hcolumn') hindent']
        simp [before]

/-- **A text in single quotes is read as it is.** -/
theorem single_singleBody {s : List Char} (hallowed : allowsSingle s = true) (hfeed : '\n' ∉ s)
    {indent column : Nat} (hindent : 0 < indent ∨ isMultiline s = false) (hcolumn : 0 < column)
    {rest : List Char} (hrest : rest.head? ≠ some '\'') :
    single column Gap.none (singleBody indent false s ++ rest) = some (s, rest) := by
  simp only [allowsSingle, needsEscapes, Bool.and_eq_true, Bool.not_eq_true', Bool.or_eq_false_iff,
    List.any_eq_false, Bool.not_eq_true', Bool.not_eq_false] at hallowed
  obtain ⟨⟨hprintable, hspaces⟩, hbreaks⟩ := hallowed
  refine single_body hrest s false column Gap.none hprintable hfeed hspaces hbreaks
    (.blank rfl fun h => absurd rfl h) (fun _ => hcolumn) ?_
  rintro (h | h)
  · exact nomatch h
  · simpa [h] using hindent

/-! ## Double quotes -/

/-- What a short escape is written for is what it is read as. None of its letters begins an escape
of another kind. -/
theorem simpleEscape?_of_shortEscape? {c letter : Char} (h : shortEscape? c = some letter) :
    simpleEscape? letter = some c ∧ isPrintable letter = true ∧ isBreak letter = false ∧
      letter ≠ '\r' ∧ letter ≠ 'x' ∧ letter ≠ 'u' ∧ letter ≠ 'U' := by
  simp only [shortEscape?, ite_eq_iff, Option.some.injEq, reduceCtorEq, and_false, or_false] at h
  -- one short escape after the other
  iterate 13
    rcases h with ⟨rfl, rfl⟩ | ⟨-, h⟩
    · decide
  obtain ⟨rfl, rfl⟩ := h
  decide

/-- A character without a short escape has none of the meanings that quotes, backslashes and breaks
have inside double quotes. -/
theorem ordinary_of_shortEscape? {c : Char} (h : shortEscape? c = none) :
    c ≠ '"' ∧ c ≠ '\\' ∧ isBreak c = false ∧ c ≠ '\t' := by
  simp only [shortEscape?, ite_eq_iff, reduceCtorEq, and_false, false_or, and_true] at h
  simp [isBreak, h]

/-- The code of a character is read as the character. -/
theorem codeEscape?_upperHex (width : Nat) {c : Char} (hwidth : 0 < width)
    (h : c.toNat < Nat.pow 16 width) : codeEscape? (Text.upperHex width c.toNat) = some c := by
  have hvalid : ¬((0xD800 ≤ c.toNat ∧ c.toNat ≤ 0xDFFF) ∨ 0x10FFFF < c.toNat) := by
    have hc := c.valid
    simp only [UInt32.isValidChar, Nat.isValidChar] at hc
    show ¬((0xD800 ≤ c.val.toNat ∧ c.val.toNat ≤ 0xDFFF) ∨ 0x10FFFF < c.val.toNat)
    omega
  rw [codeEscape?, Text.readNatural?_upperHex hwidth h, Option.bind_some, if_neg hvalid,
    Char.ofNat_toNat]

/-- A character that needs a code has one of at most four digits. -/
theorem toNat_lt_of_not_isPrintable {c : Char} (h : isPrintable c = false) :
    c.toNat < Nat.pow 16 4 := by
  simp only [isPrintable, Bool.or_eq_false_iff, decide_eq_false_iff_not] at h
  show c.toNat < 65536
  omega

/-- Reading in double quotes where neither an escape nor a pair of breaks stands. -/
theorem double_cons {column : Nat} {gap : Gap} {c : Char} {rest : List Char} (hreturn : c ≠ '\r')
    (hslash : c ≠ '\\') :
    double column gap (c :: rest) =
      if isBlank c then double (column + 1) (gap.addBlank c) rest
      else if isBreak c then double 0 (gap.addBreak (readBreak c)) rest
      else if column = 0 && isDocumentMark (c :: rest) then none
      else if c = '"' then some (gap.text, rest)
      else before (gap.text ++ [c]) (double (column + 1) Gap.none rest) := by
  rw [double.eq_8 _ _ _ _ (fun _ h _ => hreturn h) (fun _ h _ => hslash h)
    (fun _ _ _ h _ => hslash h) (fun _ _ _ _ _ h _ => hslash h)
    (fun _ _ _ _ _ _ _ _ _ h _ => hslash h) (fun _ _ h _ => hslash h), if_neg hslash]

/-- A character that stands for itself: a blank joins what is pending, any other one ends it. -/
theorem double_ordinary {column : Nat} {gap : Gap} {c : Char} (s : List Char)
    (hcolumn : 0 < column) (hgap : gap.broken = false) (hshort : shortEscape? c = none)
    (hprintable : isPrintable c = true) :
    ∃ (gap' : Gap) (front : List Char), gap'.broken = false ∧
      front ++ gap'.text = gap.text ++ [c] ∧
      double column gap (c :: s) = before front (double (column + 1) gap' s) := by
  obtain ⟨hquote, hslash, hbreak, -⟩ := ordinary_of_shortEscape? hshort
  have hzero : column ≠ 0 := Nat.ne_of_gt hcolumn
  have hreturn : c ≠ '\r' := fun h => absurd (h ▸ hprintable) (by decide)
  have hself : double column gap (c :: s) =
      if isBlank c then double (column + 1) (gap.addBlank c) s
      else before (gap.text ++ [c]) (double (column + 1) Gap.none s) := by
    rw [double_cons hreturn hslash]
    simp [hbreak, hzero, hquote]
  -- only here the pending white space may grow, since tabs and breaks have short escapes
  rw [hself]
  by_cases hblank : isBlank c = true
  · refine ⟨gap.addBlank c, [], by rw [Gap.broken_addBlank, hgap],
      by rw [Gap.text_addBlank hgap, List.nil_append], ?_⟩
    rw [if_pos hblank]
    cases double (column + 1) (gap.addBlank c) s <;> rfl
  · exact ⟨Gap.none, gap.text ++ [c], rfl, by rw [Gap.text_none, List.append_nil],
      by rw [if_neg hblank]⟩

/-- A character that is written as a code, of two digits where these are enough. -/
theorem double_code (column : Nat) (gap : Gap) {c : Char} (s : List Char)
    (hshort : shortEscape? c = none) (hprintable : isPrintable c = false) :
    ∃ column' > 0, double column gap (escaped c ++ s) =
      before (gap.text ++ [c]) (double column' Gap.none s) := by
  simp only [escaped, hshort, hprintable, Bool.false_eq_true, if_false]
  by_cases hsmall : c.toNat ≤ 0xFF
  · have hcode := codeEscape?_upperHex 2 (by decide) (Nat.lt_succ_of_le hsmall)
    simp only [Text.upperHex, List.nil_append, List.cons_append] at hcode
    refine ⟨column + 4, by omega, ?_⟩
    simp only [hsmall, if_true, Text.upperHex, List.nil_append, List.cons_append, double, hcode]
  · -- four digits are enough for a character that is not printable
    have hcode := codeEscape?_upperHex 4 (by decide) (toNat_lt_of_not_isPrintable hprintable)
    simp only [Text.upperHex, List.nil_append, List.cons_append] at hcode
    refine ⟨column + 6, by omega, ?_⟩
    simp only [hsmall, if_false, Text.upperHex, List.nil_append, List.cons_append, double, hcode]

/-- One escaped character: what is pending in front of the rest ends with it. A blank that stands
for itself may become pending, and every other character ends what was pending. -/
theorem double_char {column : Nat} {gap : Gap} (c : Char) (s : List Char) (hcolumn : 0 < column)
    (hgap : gap.broken = false) :
    ∃ column' > 0, ∃ (gap' : Gap) (front : List Char), gap'.broken = false ∧
      front ++ gap'.text = gap.text ++ [c] ∧
      double column gap (escaped c ++ s) = before front (double column' gap' s) := by
  cases hshort : shortEscape? c with
  | some letter =>
    obtain ⟨hmeaning, -, hbreak, hreturn, hx, hu, hU⟩ := simpleEscape?_of_shortEscape? hshort
    -- a short escape: what was pending goes in front of the character
    refine ⟨column + 2, by omega, Gap.none, gap.text ++ [c], rfl,
      by rw [Gap.text_none, List.append_nil], ?_⟩
    simp only [escaped, hshort, List.cons_append, List.nil_append]
    rw [double.eq_7 _ _ _ _ (fun _ h _ => hreturn h) (fun _ _ _ h _ => hx h)
      (fun _ _ _ _ _ h _ => hu h) (fun _ _ _ _ _ _ _ _ _ h _ => hU h), if_neg (by simp [hbreak]),
      hmeaning]
  | none =>
    cases hprintable : isPrintable c with
    | true =>
      obtain ⟨gap', front, hopen, htext, hread⟩ := double_ordinary s hcolumn hgap hshort hprintable
      refine ⟨column + 1, Nat.succ_pos column, gap', front, hopen, htext, ?_⟩
      rw [← hread, escaped, hshort, hprintable]
      rfl
    | false =>
      obtain ⟨column', hpos, hread⟩ := double_code column gap s hshort hprintable
      exact ⟨column', hpos, Gap.none, gap.text ++ [c], rfl, by rw [Gap.text_none, List.append_nil],
        hread⟩

/-- A text in double quotes behind some pending blanks. -/
theorem double_body (rest s : List Char) :
    ∀ (column : Nat) (gap : Gap), 0 < column → gap.broken = false →
      double column gap (s.flatMap escaped ++ '"' :: rest) = some (gap.text ++ s, rest) := by
  induction s with
  | nil =>
    intro column gap hcolumn _
    have hzero : column ≠ 0 := by omega
    rw [List.flatMap_nil, List.nil_append, List.append_nil, double_cons (by decide) (by decide)]
    simp [isBlank, isBreak, hzero]
  -- a blank stays pending where any other character is passed on at once
  | cons c s ih =>
    intro column gap hcolumn hgap
    obtain ⟨column', hcolumn', gap', front, hgap', hfront, hread⟩ :=
      double_char c (s.flatMap escaped ++ '"' :: rest) hcolumn hgap
    rw [List.flatMap_cons, List.append_assoc, hread, ih column' gap' hcolumn' hgap']
    simp only [before, Option.map_some, ← List.append_assoc, hfront]
    simp

/-- **Every text in double quotes is read as it is.** -/
theorem double_escaped (s rest : List Char) {column : Nat} (hcolumn : 0 < column) :
    double column Gap.none (s.flatMap escaped ++ '"' :: rest) = some (s, rest) :=
  double_body rest s column Gap.none hcolumn rfl

/-! ## Written characters -/

/-- The digits of a code can be shown and stay on the line. -/
theorem upperHex_chars {width n : Nat} :
    ∀ d ∈ Text.upperHex width n, isPrintable d = true ∧ isBreak d = false := by
  intro d hd
  obtain ⟨k, hk, rfl⟩ := Text.exists_of_mem_upperHex hd
  have hall : ∀ k < 16, isPrintable (Text.upperHexDigit k) = true ∧
      isBreak (Text.upperHexDigit k) = false := by decide
  exact hall k hk

/-- What is written for a character inside double quotes can be shown and stays on the line. -/
theorem escaped_chars (c : Char) :
    (∀ d ∈ escaped c, isPrintable d = true ∧ isBreak d = false) ∧ (escaped c).length ≤ 6 := by
  have hslash : isPrintable '\\' = true ∧ isBreak '\\' = false := by decide
  unfold escaped
  cases hshort : shortEscape? c with
  | some letter =>
    obtain ⟨-, hprintable, hbreak, -⟩ := simpleEscape?_of_shortEscape? hshort
    refine ⟨List.forall_mem_cons.mpr ⟨hslash, List.forall_mem_singleton.mpr ?_⟩, by simp⟩
    exact ⟨hprintable, hbreak⟩
  | none =>
    simp only
    split
    · rename_i hprintable
      refine ⟨List.forall_mem_singleton.mpr ⟨hprintable, ?_⟩, by simp⟩
      exact (ordinary_of_shortEscape? hshort).2.2.1
    · -- a code of two or of four digits
      split
      all_goals
        refine ⟨List.forall_mem_cons.mpr ⟨hslash, List.forall_mem_cons.mpr ⟨by decide, ?_⟩⟩,
          by simp [Text.length_upperHex]⟩
        exact upperHex_chars

/-- A text in double quotes takes at most six characters for each of its own, so a short key is
found within the room that a reader has for keys. -/
theorem length_flatMap_escaped (s : List Char) : (s.flatMap escaped).length ≤ 6 * s.length := by
  induction s with
  | nil => exact Nat.le_refl 0
  | cons c rest ih =>
    have hc := (escaped_chars c).2
    rw [List.flatMap_cons, List.length_append, List.length_cons]
    omega

/-- The inside of single quotes ends with the closing quote. -/
theorem getLast?_singleBody (indent : Nat) (afterBreak : Bool) (s : List Char) :
    (singleBody indent afterBreak s).getLast? = some '\'' := by
  induction s generalizing afterBreak with
  | nil => rw [singleBody, List.getLast?_concat]
  | cons c rest ih =>
    rw [singleBody]
    split <;> simp [List.getLast?_append, List.getLast?_cons, ih]

/-- A text on one line stays on one line inside single quotes. -/
theorem singleBody_line (indent : Nat) {s : List Char} (hs : isMultiline s = false) :
    (∀ c ∈ singleBody indent false s, isBreak c = false) ∧
      (singleBody indent false s).length ≤ 2 * s.length + 1 := by
  induction s with
  | nil =>
    refine ⟨fun c hc => ?_, by simp [singleBody]⟩
    obtain rfl : c = '\'' := by simpa [singleBody] using hc
    decide
  | cons d rest ih =>
    rw [isMultiline, List.any_cons, Bool.or_eq_false_iff] at hs
    obtain ⟨hchars, hlength⟩ := ih hs.2
    rw [singleBody, if_neg (by simp [hs.1])]
    -- a quote is doubled, which is why the length can double
    by_cases hquote : d = '\''
    · refine ⟨fun c hc => ?_, by simp [hquote]; omega⟩
      simp only [Bool.false_eq_true, if_false, hquote, if_true, List.nil_append, List.cons_append,
        List.mem_cons] at hc
      rcases hc with rfl | rfl | hc
      · decide
      · decide
      · exact hchars c hc
    · refine ⟨fun c hc => ?_, by simp [hquote]; omega⟩
      simp only [Bool.false_eq_true, if_false, hquote, List.nil_append, List.cons_append,
        List.mem_cons] at hc
      rcases hc with rfl | hc
      · exact hs.1
      · exact hchars c hc

end ModelGraph.Yaml
