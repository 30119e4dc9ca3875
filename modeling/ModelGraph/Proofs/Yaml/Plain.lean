import ModelGraph.Proofs.Yaml.Quoted

/-!
# Plain scalars read back

A text that is written without quotes is read as the same text, in front of the colon of a key as
well as at the end of its line.

- `StaysPlain`: what a text needs to be read as one plain scalar.
- `plain_key`, `plain_line`: the two places where it may end.
-/

namespace ModelGraph.Yaml

/-- A text that is one plain scalar wherever it stands in a block. -/
structure StaysPlain (s : List Char) : Prop where
  nonempty : s ≠ []
  oneLine : isMultiline s = false
  ends : atEnds isBlank s = false
  indicators : (places s).any isIndicatorAt = false
  marks : beginsLikeDocument s = false
  printable : ∀ c ∈ s, isPrintable c = true

instance (s : List Char) : Decidable (StaysPlain s) :=
  decidable_of_iff
    (s ≠ [] ∧ isMultiline s = false ∧ atEnds isBlank s = false ∧
      (places s).any isIndicatorAt = false ∧ beginsLikeDocument s = false ∧
      s.all isPrintable = true)
    ⟨fun ⟨h₁, h₂, h₃, h₄, h₅, h₆⟩ => ⟨h₁, h₂, h₃, h₄, h₅, List.all_eq_true.mp h₆⟩,
      fun h => ⟨h.1, h.2, h.3, h.4, h.5, List.all_eq_true.mpr h.6⟩⟩

/-- A plain scalar has no breaks. -/
theorem StaysPlain.not_isBreak {s : List Char} (h : StaysPlain s) : ∀ c ∈ s, isBreak c = false := by
  have hline := h.oneLine
  rw [isMultiline, List.any_eq_false] at hline
  simpa using hline

/-- A plain scalar does not end with a blank. -/
theorem StaysPlain.not_endsBlank {s : List Char} (h : StaysPlain s) :
    s.getLast?.any isBlank = false := by
  have hends := h.ends
  rw [atEnds, Bool.or_eq_false_iff] at hends
  exact hends.2

/-- A plain scalar begins with an indicator of a block only inside a word. -/
theorem StaysPlain.first {first : Char} {rest : List Char} (h : StaysPlain (first :: rest)) :
    isBlank first = false ∧ isLeadingIndicator first = false ∧
      (endsWord rest = true → first ≠ '?' ∧ first ≠ ':' ∧ first ≠ '-') := by
  have hends := h.ends
  rw [atEnds, Bool.or_eq_false_iff] at hends
  have hplaces := h.indicators
  rw [places, placesFrom, List.any_cons, Bool.or_eq_false_iff] at hplaces
  have hindicator := hplaces.1
  rw [isIndicatorAt, Bool.or_eq_false_iff] at hindicator
  refine ⟨hends.1, hindicator.1, fun hword => ?_⟩
  simpa [hword, and_assoc] using hindicator.2

/-- No white space is pending at the beginning. -/
theorem Gap.isOpen_none : Gap.none.isOpen = false := rfl

/-- Whether a word ends is seen from the next character. -/
theorem endsWord_append {s : List Char} (hs : s ≠ []) (t : List Char) :
    endsWord (s ++ t) = endsWord s := by
  cases s with
  | nil => exact absurd rfl hs
  | cons c rest => rfl

/-! ## Indicators -/

/-- A character that is no indicator is no colon at the end of a word. A colon inside a word is
allowed in a plain scalar. -/
theorem not_colon_of_not_isIndicatorAt {front s : List Char} {c : Char}
    (h : isIndicatorAt (front, c, s) = false) (tail : List Char) :
    (c == ':' && endsWord (s ++ tail)) = false := by
  have hcolon : (c == ':' && endsWord s) = false := by
    cases front with
    | nil =>
      simp only [isIndicatorAt, Bool.or_eq_false_iff, Bool.and_eq_false_iff] at h
      rcases h.2 with hc | hend
      · simp [hc]
      · simp [hend]
    | cons b others =>
      simp only [isIndicatorAt, Bool.or_eq_false_iff] at h
      exact h.1
  -- with nothing behind it a colon ends a word, so the character is none
  cases s with
  | nil =>
    have hc : (c == ':') = false := by simpa [endsWord] using hcolon
    rw [hc, Bool.false_and]
  | cons d rest => rwa [endsWord_append (List.cons_ne_nil d rest)]

/-- Nor does it begin a comment behind a blank. -/
theorem not_hash_of_not_isIndicatorAt {front s : List Char} {c : Char}
    (h : isIndicatorAt (front, c, s) = false) (hfront : front.head?.any isBlank = true) :
    c ≠ '#' := by
  rintro rfl
  cases front with
  | nil => exact nomatch hfront
  | cons b others =>
    simp only [isIndicatorAt, Bool.or_eq_false_iff, Bool.and_eq_false_iff] at h
    have hb : isBlank b = true := hfront
    simp [hb] at h

/-! ## Reading over a plain scalar -/

/-- Reading a plain scalar in a block where no pair of breaks stands. -/
theorem plain_cons {least column : Nat} {gap : Gap} {c : Char} {rest : List Char}
    (hreturn : c ≠ '\r') :
    plain false least column gap (c :: rest) =
      if isBlank c then
        if gap.broken && column < least && c == '\t' then none
        else plain false least (column + 1) (gap.addBlank c) rest
      else if isBreak c then plain false least 0 (gap.addBreak (readBreak c)) rest
      else if gap.isOpen &&
          (column < least || (column == 0 && isDocumentMark (c :: rest)) || c == '#') then
        some ([], gap.broken, c :: rest)
      else if c == ':' && endsWord rest then some ([], gap.broken, c :: rest)
      else (plain false least (column + 1) Gap.none rest).map fun (s, after) =>
        (gap.text ++ c :: s, after) := by
  -- the equation for a carriage return with a line feed behind it does not apply
  rw [plain.eq_3 _ _ _ _ _ _ fun _ h _ => hreturn h]
  simp

/-- Spaces behind a line break are passed over. -/
theorem plain_spaces {least : Nat} {gap : Gap} (h : gap.broken = true) (n column : Nat)
    (rest : List Char) :
    plain false least column gap (spaces n ++ rest) = plain false least (column + n) gap rest := by
  induction n generalizing column with
  | zero => rfl
  | succ n ih =>
    have hblank : gap.addBlank ' ' = gap := by simp [Gap.addBlank, h]
    rw [spaces, List.replicate_succ, List.cons_append, plain_cons (by decide), if_pos (by decide),
      if_neg (by simp), hblank, ← spaces, ih]
    congr 1
    omega

/-- The characters of a plain scalar up to where it ends. They are read one by one, and none of them
ends the scalar. -/
theorem plain_body {least : Nat} {tail : List Char} {result : Bool × List Char}
    (htail : ∀ column, plain false least column Gap.none tail = some ([], result)) :
    ∀ (s before : List Char) (column : Nat) (gap : Gap),
      (placesFrom before s).any isIndicatorAt = false → isMultiline s = false →
      s.getLast?.any isBlank = false → gap.broken = false →
      (s = [] → gap = Gap.none) → least ≤ column + 1 →
      (gap.isOpen = true → least ≤ column ∧ before.head?.any isBlank = true ∧ 0 < column) →
      plain false least column gap (s ++ tail) = some (gap.text ++ s, result) := by
  -- the gap holds the blanks since the last other character, and more of the text follows them
  intro s
  induction s with
  | nil =>
    intro before column gap _ _ _ _ hgap _ _
    rw [hgap rfl]
    exact htail column
  | cons c s ih =>
    intro before column gap hplaces hline hlast hbroken _ hleast hopen
    rw [isMultiline, List.any_cons, Bool.or_eq_false_iff] at hline
    rw [placesFrom, List.any_cons, Bool.or_eq_false_iff] at hplaces
    have hreturn : c ≠ '\r' := fun h => absurd (h ▸ hline.1) (by decide)
    have hlast' : s ≠ [] → s.getLast?.any isBlank = false := by
      intro hs
      rwa [List.getLast?_cons_of_ne_nil hs] at hlast
    rw [List.cons_append, plain_cons hreturn]
    by_cases hblank : isBlank c = true
    · -- a blank is followed by more of the text
      have hs : s ≠ [] := by
        rintro rfl
        simp [hblank] at hlast
      rw [if_pos hblank, if_neg (by simp [hbroken]),
        ih (c :: before) (column + 1) _ hplaces.2 hline.2 (hlast' hs)
          (by rw [Gap.broken_addBlank, hbroken]) (fun h => absurd h hs) (by omega)
          (fun _ => ⟨hleast, hblank, by omega⟩),
        Gap.text_addBlank hbroken, List.append_assoc, List.singleton_append]
    · have hstops : (gap.isOpen && (column < least ||
          (column == 0 && isDocumentMark (c :: (s ++ tail))) || c == '#')) = false := by
        cases hwhite : gap.isOpen with
        | false => rfl
        | true =>
          obtain ⟨hcolumn, hfront, hpos⟩ := hopen hwhite
          have hzero : column ≠ 0 := by omega
          simp [not_hash_of_not_isIndicatorAt hplaces.1 hfront, hzero, hcolumn]
      have hnone : s.getLast?.any isBlank = false := by
        cases s with
        | nil => rfl
        | cons d rest => exact hlast' (List.cons_ne_nil d rest)
      rw [if_neg hblank, if_neg (by simp [hline.1]), if_neg (by simp [hstops]),
        if_neg (by simp [not_colon_of_not_isIndicatorAt hplaces.1]),
        ih (c :: before) (column + 1) Gap.none hplaces.2 hline.2 hnone rfl (fun _ => rfl) (by omega)
          (fun h => absurd h (by decide))]
      simp

/-! ## Where a plain scalar ends -/

/-- In front of the colon of a key. -/
theorem plain_key {s : List Char} (hs : StaysPlain s) {least column : Nat}
    (hleast : least ≤ column + 1) {rest : List Char} (hrest : endsWord rest = true) :
    plain false least column Gap.none (s ++ ':' :: rest) = some (s, false, ':' :: rest) := by
  have htail : ∀ column, plain false least column Gap.none (':' :: rest) =
      some ([], false, ':' :: rest) := by
    intro column
    rw [plain_cons (by decide)]
    simp [isBlank, isBreak, Gap.isOpen_none, hrest]
    rfl
  exact plain_body htail s [] column Gap.none hs.indicators hs.oneLine hs.not_endsBlank rfl
    (fun _ => rfl) hleast (fun h => absurd h (by decide))

/-- At the end of a line whose next one is no longer inside the block, or at the end of the text. -/
theorem plain_line {s : List Char} (hs : StaysPlain s) {least column k : Nat}
    (hleast : least ≤ column + 1) {body : List Char} (hbody : Solid body)
    -- what follows the line stands left of the block, so it is not part of the scalar
    (hk : k < least ∨ body = []) :
    plain false least column Gap.none (s ++ '\n' :: (spaces k ++ body)) = some (s, true, body) := by
  have htail : ∀ column, plain false least column Gap.none ('\n' :: (spaces k ++ body)) =
      some ([], true, body) := by
    intro column
    rw [plain_cons (by decide), if_neg (by decide), if_pos (by decide), plain_spaces rfl]
    cases body with
    | nil => rfl
    | cons c rest =>
      obtain ⟨hblank, hbreak, -, -⟩ := solid_cons.mp hbody
      have hreturn : c ≠ '\r' := fun h => absurd (h ▸ hbreak) (by decide)
      have hk : k < least := hk.resolve_right (List.cons_ne_nil c rest)
      rw [plain_cons hreturn]
      simp [hblank, hbreak, hk, Gap.addBreak, Gap.isOpen, Gap.none]
  exact plain_body htail s [] column Gap.none hs.indicators hs.oneLine hs.not_endsBlank rfl
    (fun _ => rfl) hleast (fun h => absurd h (by decide))

end ModelGraph.Yaml
