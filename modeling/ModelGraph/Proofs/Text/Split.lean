import ModelGraph.Text.Basic

/-!
# Laws of splitting

A text and its pieces between separators: the pieces of a text that is put together are those of its
parts.

- `pieces_append`: a separator between two texts divides their pieces.
- `pieces_joined`: splitting undoes joining.
-/

namespace ModelGraph.Text

variable {separator : Char}

/-- A text has at least one piece, which may be without characters. -/
theorem pieces_ne_nil (s : List Char) : pieces separator s ≠ [] := by
  cases s with
  | nil => exact List.cons_ne_nil _ _
  | cons c rest =>
    rw [pieces]
    split
    · exact List.cons_ne_nil _ _
    · split <;> exact List.cons_ne_nil _ _

/-- A separator between two texts divides their pieces. No piece goes over it, so the two texts are
split apart from each other. -/
theorem pieces_append (s rest : List Char) :
    pieces separator (s ++ separator :: rest) = pieces separator s ++ pieces separator rest := by
  induction s with
  | nil => simp [pieces]
  | cons c others ih =>
    rw [List.cons_append, pieces, pieces, ih]
    by_cases hc : c = separator
    · rw [if_pos hc, if_pos hc, List.cons_append]
    · rw [if_neg hc, if_neg hc]
      -- the first piece of the text takes the character in
      cases hothers : pieces separator others with
      | nil => exact absurd hothers (pieces_ne_nil others)
      | cons first more => rfl

/-- A text without separators is its own only piece. -/
theorem pieces_of_not_mem {s : List Char} (h : separator ∉ s) : pieces separator s = [s] := by
  induction s with
  | nil => rfl
  | cons c rest ih =>
    have hc : c ≠ separator := (List.ne_of_not_mem_cons h).symm
    rw [pieces, if_neg hc, ih (List.not_mem_of_not_mem_cons h)]

/-- No piece of a text has a separator in it. -/
theorem not_mem_of_mem_pieces {s piece : List Char} (h : piece ∈ pieces separator s) :
    separator ∉ piece := by
  induction s generalizing piece with
  | nil => exact List.mem_singleton.mp h ▸ List.not_mem_nil
  | cons c rest ih =>
    rw [pieces] at h
    -- a separator ends a piece, and any other character joins the piece behind it
    by_cases hc : c = separator
    · rw [if_pos hc] at h
      rcases List.mem_cons.mp h with rfl | h
      · exact List.not_mem_nil
      · exact ih h
    · rw [if_neg hc] at h
      cases hrest : pieces separator rest with
      | nil => exact absurd hrest (pieces_ne_nil rest)
      | cons first others =>
        rw [hrest] at h ih
        rcases List.mem_cons.mp h with rfl | h
        · exact List.not_mem_cons_of_ne_of_not_mem (Ne.symm hc) (ih List.mem_cons_self)
        · exact ih (List.mem_cons_of_mem first h)

/-- Texts without slashes are the pieces of the text that joins them. -/
theorem pieces_joined (first : String) (rest : List String)
    (h : ∀ s ∈ first :: rest, '/' ∉ s.toList) :
    pieces '/' (joined "/" (first :: rest)).toList = (first :: rest).map String.toList := by
  induction rest generalizing first with
  | nil => exact pieces_of_not_mem (h first List.mem_cons_self)
  | cons next others ih =>
    obtain ⟨hfirst, hrest⟩ := List.forall_mem_cons.mp h
    rw [joined, String.toList_append, String.toList_append, List.append_assoc]
    · change pieces '/' (first.toList ++ '/' :: (joined "/" (next :: others)).toList) = _
      -- the first text is a piece of its own in front of the slash
      rw [pieces_append, pieces_of_not_mem hfirst, ih next hrest]
      rfl
    · exact List.cons_ne_nil _ _

end ModelGraph.Text
