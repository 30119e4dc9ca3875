import ModelGraph.Yaml.Printer

/-!
# Laws of characters and marks

What the classes of characters have in common, the white space between tokens, and how a mark moves
over a text.

- `eq_of_isPrintable_isBreak`, `eq_of_isPrintable_isBlank`: the breaks and the blanks among the
  characters that may be written as themselves.
- `Solid`: a text that begins with something else than white space.
- `Mark.over_line_lt`, `Mark.over_column`: lines and columns behind a line break.
-/

namespace ModelGraph.Yaml

/-! ## Classes -/

/-- The five line breaks, one by one. -/
theorem isBreak_iff {c : Char} :
    isBreak c = true ↔
      c = '\n' ∨ c = '\r' ∨ c = '\u0085' ∨ c = '\u2028' ∨ c = '\u2029' := by
  simp only [isBreak, Bool.or_eq_true, beq_iff_eq, or_assoc]

/-- The two blanks, one by one. -/
theorem isBlank_iff {c : Char} : isBlank c = true ↔ c = ' ' ∨ c = '\t' := by
  simp only [isBlank, Bool.or_eq_true, beq_iff_eq]

/-- Three line breaks may be written as themselves. -/
theorem eq_of_isPrintable_isBreak {c : Char} (hp : isPrintable c = true) (hb : isBreak c = true) :
    c = '\n' ∨ c = '\u2028' ∨ c = '\u2029' := by
  rcases isBreak_iff.mp hb with rfl | rfl | rfl | rfl | rfl
  · exact .inl rfl
  · exact absurd hp (by decide)
  · exact absurd hp (by decide)
  · exact .inr (.inl rfl)
  · exact .inr (.inr rfl)

/-- A tab is never written as itself. -/
theorem eq_of_isPrintable_isBlank {c : Char} (hp : isPrintable c = true) (hb : isBlank c = true) :
    c = ' ' := by
  rcases isBlank_iff.mp hb with rfl | rfl
  · rfl
  · exact absurd hp (by decide)

/-- Every line break that may be written as itself is read as it is. -/
theorem readBreak_of_isPrintable {c : Char} (hp : isPrintable c = true) (hb : isBreak c = true) :
    readBreak c = [c] := by
  rcases eq_of_isPrintable_isBreak hp hb with rfl | rfl | rfl <;> decide

/-- A break that may be written as itself is taken alone. Only a carriage return is taken together
with a line feed behind it, and it is never written as itself. -/
theorem takeBreak_of_isPrintable {c : Char} (hp : isPrintable c = true) (hb : isBreak c = true)
    (rest : List Char) : takeBreak (c :: rest) = ([c], rest) := by
  rcases eq_of_isPrintable_isBreak hp hb with rfl | rfl | rfl <;>
    simp [takeBreak, isBreak, readBreak]

/-- No break is a blank. -/
theorem not_isBlank_of_isBreak {c : Char} (h : isBreak c = true) : isBlank c = false := by
  rcases isBreak_iff.mp h with rfl | rfl | rfl | rfl | rfl <;> decide

/-! ## White space between tokens -/

/-- The text is at its end or begins with neither white space nor a comment. -/
def Solid (s : List Char) : Prop :=
  ∀ c ∈ s.head?, isBlank c = false ∧ isBreak c = false ∧ c ≠ '#' ∧ c ≠ byteOrderMark

/-- The end of a text is no white space. -/
theorem solid_nil : Solid [] := nofun

/-- A text is judged by its first character. -/
theorem solid_cons {c : Char} {s : List Char} :
    Solid (c :: s) ↔
      isBlank c = false ∧ isBreak c = false ∧ c ≠ '#' ∧ c ≠ byteOrderMark := by
  simp [Solid]

/-! ## Marks -/

/-- A mark stays where it is over no characters. -/
@[simp]
theorem Mark.over_nil (m : Mark) : m.over [] = m := rfl

/-- A mark over a character that is no break. -/
theorem Mark.over_cons {c : Char} (hc : isBreak c = false) (m : Mark) (s : List Char) :
    m.over (c :: s) = Mark.over ⟨m.index + 1, m.line, m.column + 1⟩ s := by
  have hreturn : c ≠ '\r' := fun h => absurd (h ▸ hc) (by decide)
  rw [Mark.over.eq_3 _ _ _ fun _ h _ => hreturn h, if_neg (by simp [hc])]

/-- A mark over a break that is no part of a pair. -/
theorem Mark.over_break {c : Char} (hc : isBreak c = true) (hreturn : c ≠ '\r') (m : Mark)
    (s : List Char) : m.over (c :: s) = Mark.over ⟨m.index + 1, m.line + 1, 0⟩ s := by
  rw [Mark.over.eq_3 _ _ _ fun _ h _ => hreturn h, if_pos hc]

/-- The place some characters further on the same line. -/
def Mark.right (m : Mark) (n : Nat) : Mark := ⟨m.index + n, m.line, m.column + n⟩

/-- The column moves with the mark. -/
@[simp]
theorem Mark.right_column (m : Mark) (n : Nat) : (m.right n).column = m.column + n := rfl

/-- Two moves on a line are one. -/
@[simp]
theorem Mark.right_right (m : Mark) (a b : Nat) : (m.right a).right b = m.right (a + b) := by
  simp only [Mark.right, Nat.add_assoc]

/-- A mark over characters of a line moves to the right by their number. -/
theorem Mark.over_line {s : List Char} (hs : ∀ c ∈ s, isBreak c = false) (m : Mark) :
    m.over s = m.right s.length := by
  induction s generalizing m with
  | nil => rfl
  | cons c rest ih =>
    rw [Mark.over_cons (hs c List.mem_cons_self), ih fun d hd => hs d (List.mem_cons_of_mem c hd)]
    simp only [Mark.right, List.length_cons, Mark.mk.injEq, true_and]
    omega

/-- So it does over an indentation. -/
theorem Mark.over_spaces (m : Mark) (n : Nat) :
    m.over (spaces n) = m.right n := by
  rw [Mark.over_line (s := spaces n), spaces, List.length_replicate]
  intro c hc
  rw [List.eq_of_mem_replicate hc]
  decide

/-- A mark over a text is on its line or a later one. -/
theorem Mark.line_le_over (m : Mark) (s : List Char) : m.line ≤ (m.over s).line := by
  fun_induction Mark.over m s with
  | case1 m => exact Nat.le_refl m.line
  | case2 m rest ih => exact Nat.le_trans (Nat.le_succ m.line) ih
  | case3 m c rest _ _ ih => exact Nat.le_trans (Nat.le_succ m.line) ih
  | case4 m c rest _ _ ih => exact ih

/-- Behind a break that is no carriage return a line begins. -/
theorem Mark.over_append_break {c : Char} (hc : isBreak c = true) (hreturn : c ≠ '\r') (m : Mark)
    (s t : List Char) :
    ∃ m' : Mark, m.line < m'.line ∧ m'.column = 0 ∧ m.over (s ++ c :: t) = m'.over t := by
  fun_induction Mark.over m s with
  | case1 m =>
    exact ⟨_, Nat.lt_succ_self m.line, rfl, Mark.over_break hc hreturn m t⟩
  | case2 m rest ih =>
    obtain ⟨m', hline, hcolumn, hover⟩ := ih
    exact ⟨m', Nat.lt_trans (Nat.lt_succ_self m.line) hline, hcolumn, hover⟩
  | case3 m d rest hpair hbreak ih =>
    by_cases hmerge : d = '\r' ∧ rest = [] ∧ c = '\n'
    · -- the two breaks become one
      obtain ⟨rfl, rfl, rfl⟩ := hmerge
      exact ⟨⟨m.index + 2, m.line + 1, 0⟩, Nat.lt_succ_self m.line, rfl, rfl⟩
    · obtain ⟨m', hline, hcolumn, hover⟩ := ih
      refine ⟨m', Nat.lt_trans (Nat.lt_succ_self m.line) hline, hcolumn, ?_⟩
      -- the break inside is not the first half of a pair
      have halone : ∀ r, d = '\r' → rest ++ c :: t = '\n' :: r → False := by
        intro r hd hr
        cases rest with
        | nil => exact hmerge ⟨hd, rfl, (List.cons.inj hr).1⟩
        | cons x xs => exact hpair xs hd (by rw [(List.cons.inj hr).1])
      rw [List.cons_append, Mark.over.eq_3 _ _ _ halone, if_pos hbreak, hover]
  | case4 m d rest hpair hbreak ih =>
    obtain ⟨m', hline, hcolumn, hover⟩ := ih
    refine ⟨m', hline, hcolumn, ?_⟩
    rw [List.cons_append, Mark.over_cons (by simpa using hbreak), hover]

end ModelGraph.Yaml
