/-!
# Steps that can fail

Steps that are taken one after the other succeed exactly if each of them does on what the one before
has given.

- `bind_eq_ok`: two steps.
- `foldlM_cons_eq_ok`: the first step for an element of a list, and those for the others.
- `foldlM_eq_error`: the element of a list at which steps fail.
- `eq_ok_of_toOption`, `exists_error_of_toOption`: success and failure told by whether there is a
  value, which can be decided where results cannot be compared.
-/

namespace ModelGraph

variable {ε α β : Type}

/-- Two steps succeed exactly if the first one does, and the second one on what the first gives. -/
theorem bind_eq_ok {x : Except ε α} {next : α → Except ε β} {b : β} :
    x >>= next = .ok b ↔ ∃ a, x = .ok a ∧ next a = .ok b := by
  cases x with
  | error e => exact ⟨nofun, fun ⟨_, hx, _⟩ => nomatch hx⟩
  | ok a => exact ⟨fun h => ⟨a, rfl, h⟩, fun ⟨_, hx, h⟩ => by cases hx; exact h⟩

/-- Steps for the elements of a list succeed exactly if the one for the first element does, and then
those for the others. -/
theorem foldlM_cons_eq_ok {step : β → α → Except ε β} {a : α} {rest : List α} {b b' : β} :
    (a :: rest).foldlM step b = .ok b' ↔
      ∃ next, step b a = .ok next ∧ rest.foldlM step next = .ok b' := by
  rw [List.foldlM_cons, bind_eq_ok]

/-- Steps for the elements of a list fail exactly if one of them fails on what those before it have
given. The elements behind it play no part, so the first failure is the one that is seen. -/
theorem foldlM_eq_error {step : β → α → Except ε β} {e : ε} {l : List α} {b : β} :
    l.foldlM step b = .error e ↔ ∃ before a after b', l = before ++ a :: after ∧
      before.foldlM step b = .ok b' ∧ step b' a = .error e := by
  induction l generalizing b with
  | nil =>
    constructor
    · intro h
      cases h
    · rintro ⟨before, a, after, -, hl, -⟩
      simp at hl
  | cons x rest ih =>
    rw [List.foldlM_cons]
    constructor
    · intro h
      cases hx : step b x with
      | error e' =>
        rw [hx] at h
        cases h
        -- the first element is the one that fails
        exact ⟨[], x, rest, b, rfl, rfl, hx⟩
      | ok next =>
        rw [hx] at h
        obtain ⟨before, a, after, b', rfl, hbefore, ha⟩ := ih.mp h
        -- the element that fails comes later, behind the first one and those before it
        exact ⟨x :: before, a, after, b', rfl, foldlM_cons_eq_ok.mpr ⟨next, hx, hbefore⟩, ha⟩
    · rintro ⟨before, a, after, b', hl, hbefore, ha⟩
      cases before with
      | nil =>
        cases hl
        cases hbefore
        rw [ha]
        rfl
      | cons y before =>
        cases hl
        obtain ⟨next, hx, hbefore'⟩ := foldlM_cons_eq_ok.mp hbefore
        rw [hx]
        exact ih.mpr ⟨before, a, after, b', rfl, hbefore', ha⟩

/-- A result is a success if it has a value. Results hold errors that cannot be compared, so this is
how a success on a fixed input is decided. -/
theorem eq_ok_of_toOption {r : Except ε α} {a : α} (h : r.toOption = some a) : r = .ok a := by
  cases r with
  | error e => cases h
  | ok b =>
    cases h
    rfl

/-- A result is a failure if it has no value. -/
theorem exists_error_of_toOption {r : Except ε α} (h : r.toOption = none) :
    ∃ e, r = .error e := by
  cases r with
  | error e => exact ⟨e, rfl⟩
  | ok b => cases h

end ModelGraph
