import Mathlib.Data.List.Basic
import Mathlib.Data.List.DropRight
import ModelGraph.Proofs.Yaml.Char

/-!
# Literal blocks read back

A text written as a literal block is read as the same text, with exactly its line breaks at the
end. The proof takes the text apart into breaks at its beginning, a core that begins and ends with
something else than a break, and breaks at its end.

- `blockLines?_core`: the lines of the core.
- `block?_literalText`: the whole block with its header.
-/

namespace ModelGraph.Yaml

/-! ## How the lines are written -/

/-- Characters of a line are written as they are. -/
theorem literalBody_line {indent : Nat} {line : List Char} (hline : ∀ c ∈ line, isBreak c = false)
    (s : List Char) :
    literalBody indent false (line ++ s) = line ++ literalBody indent false s := by
  induction line with
  | nil => rfl
  | cons c rest ih =>
    rw [List.cons_append, literalBody, if_neg (by simp [hline c List.mem_cons_self]),
      ih fun d hd => hline d (List.mem_cons_of_mem c hd)]
    rfl

/-- Breaks at the beginning are written as they are. The indentation is put in front of the next
other character only, so empty lines stay empty. -/
theorem literalBody_breaks (indent : Nat) {breaks : List Char}
    (hbreaks : ∀ c ∈ breaks, isBreak c = true) (s : List Char) :
    literalBody indent true (breaks ++ s) = breaks ++ literalBody indent true s := by
  induction breaks with
  | nil => rfl
  | cons c rest ih =>
    rw [List.cons_append, literalBody, if_pos (hbreaks c List.mem_cons_self),
      ih fun d hd => hbreaks d (List.mem_cons_of_mem c hd), List.cons_append]

/-- Breaks at the end are written as they are. They are not indented, as only a line with something
on it is. -/
theorem literalBody_append_breaks {indent : Nat} {breaks : List Char}
    (hbreaks : ∀ c ∈ breaks, isBreak c = true) (afterBreak : Bool) (s : List Char) :
    literalBody indent afterBreak (s ++ breaks) = literalBody indent afterBreak s ++ breaks := by
  induction s generalizing afterBreak with
  | nil =>
    cases breaks with
    | nil => rfl
    | cons c rest =>
      -- the breaks themselves are written behind a break, whatever stood in front of them
      have hrest := literalBody_breaks indent
        (fun d hd => hbreaks d (List.mem_cons_of_mem c hd)) []
      rw [List.append_nil, literalBody, List.append_nil] at hrest
      show literalBody indent afterBreak (c :: rest) = c :: rest
      rw [literalBody, if_pos (hbreaks c List.mem_cons_self), hrest]
  | cons c rest ih =>
    rw [List.cons_append, literalBody, literalBody, ih, ih]
    split <;> simp

/-- Nothing is left out. The fuel of the reader, which is the length of what is written, is
therefore enough for the text. -/
theorem length_le_literalBody (indent : Nat) (afterBreak : Bool) (s : List Char) :
    s.length ≤ (literalBody indent afterBreak s).length := by
  induction s generalizing afterBreak with
  | nil => exact Nat.le_refl 0
  | cons c rest ih =>
    rw [literalBody]
    split
    · simpa using ih true
    · have := ih false
      simp only [List.length_append, List.length_cons]
      omega

/-- A line that is not empty begins with the indentation. -/
theorem literalBody_indented {indent : Nat} {c : Char} {s : List Char} (hc : isBreak c = false) :
    literalBody indent true (c :: s) = spaces indent ++ literalBody indent false (c :: s) := by
  simp [literalBody, hc]

/-- A block ends with the last character of its text. -/
theorem getLast?_literalBody (indent : Nat) (afterBreak : Bool) (s : List Char) :
    (literalBody indent afterBreak s).getLast? = s.getLast? := by
  induction s generalizing afterBreak with
  | nil => rfl
  | cons c rest ih =>
    rw [literalBody]
    split <;> simp [List.getLast?_append, List.getLast?_cons, ih]

/-! ## Empty lines -/

/-- Line breaks in front of a line are kept. -/
theorem blockGap?_breaks {indent deepest : Nat} {breaks : List Char}
    (hbreaks : ∀ c ∈ breaks, isPrintable c = true ∧ isBreak c = true) (s : List Char) :
    blockGap? indent 0 deepest (breaks ++ s) =
      (blockGap? indent 0 deepest s).map fun (read, after) => (breaks ++ read, after) := by
  induction breaks with
  | nil => simp
  | cons c rest ih =>
    obtain ⟨hprintable, hbreak⟩ := hbreaks c List.mem_cons_self
    -- a break of a pair or a blank would be read otherwise, and none of them is printable and a
    -- break
    have hreturn : c ≠ '\r' := fun h => absurd (h ▸ hprintable) (by decide)
    have hspace : c ≠ ' ' := fun h => absurd (h ▸ hbreak) (by decide)
    have htab : c ≠ '\t' := fun h => absurd (h ▸ hbreak) (by decide)
    rw [List.cons_append, blockGap?.eq_3 _ _ _ _ _ fun _ h _ => hreturn h]
    simp only [beq_iff_eq, hspace, htab, Bool.and_eq_true, and_false, if_false, hbreak, if_true,
      readBreak_of_isPrintable hprintable hbreak]
    rw [ih fun d hd => hbreaks d (List.mem_cons_of_mem c hd), Option.map_map]
    rfl

/-- The indentation of a line that is not empty, or of the end of the block. A line may begin with
white space only behind its full indentation. -/
theorem blockGap?_spaces {indent : Nat} {s : List Char} (n : Nat) (hn : indent = 0 ∨ n ≤ indent)
    (hs : ∀ c ∈ s.head?, isBreak c = false ∧ (isBlank c = true → n = indent ∧ 0 < indent)) :
    ∀ deepest, blockGap? indent 0 deepest (spaces n ++ s) = some ([], max deepest n, n, s) := by
  -- the column and the spaces that are left make up the width
  have hfrom : ∀ (m column deepest : Nat), column + m = n →
      blockGap? indent column deepest (spaces m ++ s) = some ([], max deepest n, n, s) := by
    intro m
    induction m with
    | zero =>
      rintro column deepest rfl
      cases s with
      | nil => rfl
      | cons c rest =>
        obtain ⟨hbreak, hblank⟩ := hs c rfl
        have hreturn : c ≠ '\r' := fun h => absurd (h ▸ hbreak) (by decide)
        have hcontent : isBlank c = true → ¬(indent = 0 ∨ column < indent) := by
          intro h
          have hwidth := hblank h
          omega
        have hspace : ¬((indent = 0 ∨ column < indent) ∧ c = ' ') := by
          rintro ⟨hin, rfl⟩
          exact hcontent rfl hin
        have htab : ¬((indent = 0 ∨ column < indent) ∧ c = '\t') := by
          rintro ⟨hin, rfl⟩
          exact hcontent rfl hin
        rw [spaces, List.replicate_zero, List.nil_append,
          blockGap?.eq_3 _ _ _ _ _ fun _ h _ => hreturn h]
        simp [hspace, htab, hbreak]
    | succ m ih =>
      intro column deepest hcolumn
      have hin : indent = 0 ∨ column < indent := by omega
      rw [spaces, List.replicate_succ, List.cons_append,
        blockGap?.eq_3 _ _ _ _ _ fun _ h _ => absurd h (by decide), ← spaces]
      simp only [Bool.and_eq_true, Bool.or_eq_true, beq_iff_eq, decide_eq_true_eq, hin, and_self,
        if_true]
      rw [ih (column + 1) _ (by omega)]
      simp only [Option.some.injEq, Prod.mk.injEq, and_true, true_and]
      omega
  exact fun deepest => hfrom n 0 deepest (Nat.zero_add n)

/-- Line breaks in front of the rest of a block. -/
theorem blockGap?_line {indent deepest : Nat} (hindent : 0 < indent) {breaks s : List Char}
    (hbreaks : ∀ c ∈ breaks, isPrintable c = true ∧ isBreak c = true)
    (hs : ∀ c ∈ s.head?, isBreak c = false) :
    blockGap? indent 0 deepest (breaks ++ (spaces indent ++ s)) =
      some (breaks, max deepest indent, indent, s) := by
  rw [blockGap?_breaks hbreaks, blockGap?_spaces indent (.inr (Nat.le_refl _)) fun c hc =>
    ⟨hs c hc, fun _ => ⟨rfl, hindent⟩⟩]
  simp

/-- Line breaks in front of what stands behind a block. -/
theorem blockGap?_end {indent k deepest : Nat} (hk : k < indent) {breaks body : List Char}
    (hbreaks : ∀ c ∈ breaks, isPrintable c = true ∧ isBreak c = true) (hbody : Solid body) :
    blockGap? indent 0 deepest (breaks ++ (spaces k ++ body)) =
      some (breaks, max deepest k, k, body) := by
  rw [blockGap?_breaks hbreaks, blockGap?_spaces k (.inr (Nat.le_of_lt hk)) fun c hc => ?_]
  · simp
  · obtain ⟨hblank, hbreak, -, -⟩ := hbody c hc
    exact ⟨hbreak, fun h => by rw [hblank] at h; exact nomatch h⟩

/-! ## Lines -/

/-- One line of a literal block, up to its break. -/
theorem blockLines?_line {indent fuel : Nat} {afterBlank : Bool}
    {pending empties line s : List Char}
    {c : Char} (hline : line ≠ [] ∧ ∀ d ∈ line, isBreak d = false)
    (hc : isPrintable c = true ∧ isBreak c = true) :
    blockLines? true indent (fuel + 1) afterBlank pending empties indent (line ++ c :: s) =
      (blockGap? indent 0 0 s).bind fun (empties', _, column, after) =>
        (blockLines? true indent fuel (line.head?.any isBlank) [c] empties' column after).map
          fun (text, result) => (pending ++ empties ++ line ++ text, result) := by
  obtain ⟨hne, hall⟩ := hline
  -- a line reaches up to its break, whatever stands in it
  have htake : (line ++ c :: s).takeWhile (!isBreak ·) = line := by
    rw [List.takeWhile_append_of_pos (by simpa using hall),
      List.takeWhile_cons_of_neg (by simp [hc.2]),
      List.append_nil]
  have hdrop : (line ++ c :: s).dropWhile (!isBreak ·) = c :: s := by
    rw [List.dropWhile_append_of_pos (by simpa using hall),
      List.dropWhile_cons_of_neg (by simp [hc.2])]
  obtain ⟨first, others, rfl⟩ := List.exists_cons_of_ne_nil hne
  rw [List.cons_append] at htake hdrop ⊢
  rw [blockLines?.eq_2, htake, hdrop, takeBreak_of_isPrintable hc.1 hc.2]
  simp only [ne_eq, not_true_eq_false, List.isEmpty_cons, Bool.false_eq_true, or_self, if_false,
    Bool.not_true, Bool.false_and]
  cases blockGap? indent 0 0 s with
  | none => rfl
  | some found => rfl

/-- The block ends in front of a line that is not indented far enough. -/
theorem blockLines?_stop {indent column fuel : Nat} {afterBlank : Bool}
    {pending empties : List Char} (s : List Char) (h : column ≠ indent) :
    blockLines? true indent fuel afterBlank pending empties column s =
      some ([], pending, empties, s) := by
  cases fuel with
  | zero => rw [blockLines?.eq_1]
  | succ fuel =>
    rw [blockLines?.eq_def]
    simp [h]

/-- A part of a text that begins and ends inside a line. A text that is not made of breaks alone has
exactly one between the breaks at its two ends, and it is where the lines of a block are read. -/
structure Core (s : List Char) : Prop where
  nonempty : s ≠ []
  head : s.head?.any isBreak = false
  last : s.getLast?.any isBreak = false
  printable : ∀ c ∈ s, isPrintable c = true

/-- The rest of a core from the beginning of a line is a core. -/
theorem Core.suffix {front s : List Char} (h : Core (front ++ s)) (hne : s ≠ [])
    (hhead : s.head?.any isBreak = false) : Core s where
  nonempty := hne
  head := hhead
  last := by
    have hlast := h.last
    rwa [List.getLast?_append_of_ne_nil _ hne] at hlast
  printable c hc := h.printable c (List.mem_append_right front hc)

/-- A core does not end with breaks. -/
theorem Core.eq_nil_of_breaks {front breaks : List Char} (h : Core (front ++ breaks))
    (hbreaks : ∀ c ∈ breaks, isBreak c = true) : breaks = [] := by
  rcases List.eq_nil_or_concat' breaks with rfl | ⟨others, c, rfl⟩
  · rfl
  · have hlast := h.last
    rw [← List.append_assoc, List.getLast?_concat] at hlast
    exact absurd (hbreaks c (by simp)) (by simpa using hlast)

/-- Behind all breaks stands something else. -/
theorem head?_dropWhile_isBreak (s : List Char) :
    (s.dropWhile isBreak).head?.any isBreak = false := by
  have hhead := List.head?_dropWhile_not isBreak s
  cases hdrop : (s.dropWhile isBreak).head? with
  | none => rfl
  | some c =>
    rw [hdrop] at hhead
    simpa using hhead

/-- A core is one line, or a line, breaks and a core. -/
theorem Core.split {s : List Char} (h : Core s) :
    ∃ line rest, s = line ++ rest ∧ (line ≠ [] ∧ ∀ c ∈ line, isBreak c = false) ∧
      (rest = [] ∨ ∃ c breaks core, rest = c :: (breaks ++ core) ∧ isBreak c = true ∧
        (∀ d ∈ breaks, isBreak d = true) ∧ Core core) := by
  have hs : s = s.takeWhile (!isBreak ·) ++ s.dropWhile (!isBreak ·) :=
    List.takeWhile_append_dropWhile.symm
  have hline : s.takeWhile (!isBreak ·) ≠ [] := by
    obtain ⟨c, rest, rfl⟩ := List.exists_cons_of_ne_nil h.nonempty
    have hc : isBreak c = false := h.head
    rw [List.takeWhile_cons_of_pos (by simp [hc])]
    exact List.cons_ne_nil c _
  refine ⟨_, _, hs, ⟨hline, fun c hc => by simpa using List.mem_takeWhile_imp hc⟩, ?_⟩
  cases hrest : s.dropWhile (!isBreak ·) with
  | nil => exact .inl rfl
  | cons c rest =>
    have hc : isBreak c = true := by
      have hhead := List.head?_dropWhile_not (!isBreak ·) s
      rw [hrest] at hhead
      simpa using hhead
    have hbreaks : ∀ d ∈ rest.takeWhile isBreak, isBreak d = true := fun d hd =>
      List.mem_takeWhile_imp hd
    have hsplit : rest.takeWhile isBreak ++ rest.dropWhile isBreak = rest :=
      List.takeWhile_append_dropWhile
    refine .inr ⟨c, rest.takeWhile isBreak, rest.dropWhile isBreak, by rw [hsplit], hc, hbreaks, ?_⟩
    rw [hs, hrest] at h
    -- the breaks are not the end of the core, so something else stands behind them
    have hne : rest.dropWhile isBreak ≠ [] := by
      intro hnil
      rw [hnil, List.append_nil] at hsplit
      rw [hsplit] at hbreaks
      exact absurd (h.eq_nil_of_breaks (List.forall_mem_cons.mpr ⟨hc, hbreaks⟩))
        (List.cons_ne_nil c rest)
    rw [← hsplit, ← List.cons_append, ← List.append_assoc] at h
    exact h.suffix hne (head?_dropWhile_isBreak rest)

/-- Two printed pieces of the lines: the indentation of a core and its first character. -/
theorem Core.literalBody_eq {s : List Char} (h : Core s) (indent : Nat) :
    literalBody indent true s = spaces indent ++ literalBody indent false s ∧
      ∃ c rest, isBreak c = false ∧ s.head? = some c ∧ literalBody indent false s = c :: rest := by
  obtain ⟨c, rest, rfl⟩ := List.exists_cons_of_ne_nil h.nonempty
  have hc : isBreak c = false := h.head
  exact ⟨literalBody_indented hc, c, literalBody indent false rest, hc, rfl, by
    rw [literalBody, if_neg (by simp [hc])]; rfl⟩

/-- **The lines of a core are read up to its last break**, and the breaks behind that one apart. -/
theorem blockLines?_core {indent k : Nat} (hindent : 0 < indent) (hk : k < indent)
    {body : List Char} (hbody : Solid body) {b : Char} {bs : List Char}
    (hbreaks : ∀ c ∈ b :: bs, isPrintable c = true ∧ isBreak c = true) :
    ∀ (fuel : Nat) (core : List Char) (afterBlank : Bool) (pending empties : List Char), Core core →
      core.length ≤ fuel →
      blockLines? true indent fuel afterBlank pending empties indent
          (literalBody indent false core ++ b :: (bs ++ (spaces k ++ body))) =
        some (pending ++ empties ++ core, [b], bs, body) := by
  -- on the fuel rather than on the core: one round takes a whole line with the breaks behind it
  intro fuel
  induction fuel with
  | zero =>
    intro core _ _ _ hcore hlength
    exact absurd (List.length_eq_zero_iff.mp (Nat.le_zero.mp hlength)) hcore.nonempty
  | succ fuel ih =>
    intro core afterBlank pending empties hcore hlength
    obtain ⟨line, rest, rfl, hline, hrest⟩ := hcore.split
    rcases hrest with rfl | ⟨c, breaks, core, rfl, hc, hbreaks', hcore'⟩
    · -- the last line
      rw [literalBody_line hline.2, literalBody, List.append_nil,
        blockLines?_line hline (hbreaks b List.mem_cons_self),
        blockGap?_end hk (fun d hd => hbreaks d (List.mem_cons_of_mem b hd)) hbody]
      simp only [Option.bind_some]
      rw [blockLines?_stop body (Nat.ne_of_lt hk)]
      simp
    -- a line, and behind its breaks the indentation of the next one
    · have hprintable : ∀ d ∈ c :: breaks, isPrintable d = true := fun d hd =>
        hcore.printable d (List.mem_append_right _ (by
          rw [← List.cons_append]; exact List.mem_append_left _ hd))
      obtain ⟨hwritten, d, others, hd, -, hfirst⟩ := hcore'.literalBody_eq indent
      have hcontent :
          ∀ x ∈ (literalBody indent false core ++ b :: (bs ++ (spaces k ++ body))).head?,
            isBreak x = false := by
        rw [hfirst]
        intro x hx
        obtain rfl : d = x := by simpa using hx
        exact hd
      have hshort : core.length ≤ fuel := by
        simp only [List.length_append, List.length_cons] at hlength
        omega
      rw [literalBody_line hline.2, literalBody, if_pos hc, literalBody_breaks _ hbreaks', hwritten]
      simp only [List.append_assoc, List.cons_append]
      rw [blockLines?_line hline ⟨hprintable c List.mem_cons_self, hc⟩,
        blockGap?_line hindent (fun x hx =>
          ⟨hprintable x (List.mem_cons_of_mem c hx), hbreaks' x hx⟩) hcontent]
      simp only [Option.bind_some]
      rw [ih core _ _ _ hcore' hshort]
      simp

/-! ## Headers -/

/-- The letter of a kind of chomping. -/
def Chomping.text : Chomping → List Char
  | .strip => ['-']
  | .clip => []
  | .keep => ['+']

/-- A header is read as it is written. -/
theorem blockHeader?_written (hint : Bool) (chomping : Chomping) (s : List Char) :
    blockHeader? ((if hint then ['2'] else []) ++ chomping.text ++ '\n' :: s) =
      some (chomping, if hint then 2 else 0, '\n' :: s) := by
  cases hint <;> cases chomping <;> rfl

/-- Nothing stands between the header and the end of its line. -/
theorem restOfLine?_feed (s : List Char) : restOfLine? ('\n' :: s) = some s := by
  simp [restOfLine?, isBlank, endsLine, isBreak, takeBreak]

/-- The chomping of a text by its last two characters. -/
theorem chompingText_concat (s : List Char) (c : Char) :
    chompingText (s ++ [c]) =
      if isBreak c then (if s.getLast?.all isBreak then ['+'] else []) else ['-'] := by
  rw [chompingText, List.reverse_append, List.reverse_singleton, List.singleton_append]
  simp only
  split
  · rw [← List.head?_reverse]
    cases s.reverse with
    | nil => rfl
    | cons d rest => rfl
  · rfl

/-! ## Whole blocks -/

/-- A text of several lines: breaks, a core, and breaks again. -/
theorem exists_core {s : List Char} (hs : ∀ c ∈ s, isPrintable c = true) :
    (∀ c ∈ s, isBreak c = true) ∨
      ∃ lead core trail, s = lead ++ core ++ trail ∧ (∀ c ∈ lead, isBreak c = true) ∧ Core core ∧
        ∀ c ∈ trail, isBreak c = true := by
  have hlead : s.takeWhile isBreak ++ s.dropWhile isBreak = s := List.takeWhile_append_dropWhile
  have hhead := head?_dropWhile_isBreak s
  generalize s.dropWhile isBreak = mid at hlead hhead
  have htrail := List.rdropWhile_append_rtakeWhile (p := isBreak) (l := mid)
  -- what is left without the breaks at both ends is the core, if anything is
  by_cases hcore : mid.rdropWhile isBreak = []
  · refine .inl fun c hc => ?_
    rw [← hlead, List.mem_append] at hc
    rcases hc with hc | hc
    · exact List.mem_takeWhile_imp hc
    · exact List.rdropWhile_eq_nil_iff.mp hcore c hc
  · refine .inr ⟨s.takeWhile isBreak, _, mid.rtakeWhile isBreak,
      by rw [List.append_assoc, htrail, hlead], fun c hc => List.mem_takeWhile_imp hc,
      ⟨hcore, ?_, ?_, fun c hc => hs c ?_⟩, fun c hc => List.mem_rtakeWhile_imp hc⟩
    · rwa [← htrail, List.head?_append_of_ne_nil _ hcore] at hhead
    · rw [List.getLast?_eq_getLast_of_ne_nil hcore]
      simpa using List.rdropWhile_last_not isBreak mid hcore
    · rw [← hlead]
      exact List.mem_append_right _ ((List.rdropWhile_prefix isBreak (l := mid)).subset hc)

/-- Reading a block, given what its parts are read as: its header, the breaks in front of its first
line, and its lines. -/
theorem block?_parts {least indent column deepest : Nat} (hint : Bool) {chomping : Chomping}
    {lines lead after text lastBreak more rest : List Char} (hindent : indent = least - 1 + 2)
    (hlead : blockGap? (if hint then indent else 0) 0 0 lines = some (lead, deepest, column, after))
    (hdeepest : hint = false → deepest = indent)
    (hlines : blockLines? true indent (after.length + 1) false [] lead column after =
      some (text, lastBreak, more, rest)) :
    block? true least ((if hint then ['2'] else []) ++ chomping.text ++ '\n' :: lines) =
      some (text ++ (if chomping = .strip then [] else lastBreak) ++
        (if chomping = .keep then more else []), rest) := by
  rw [block?, blockHeader?_written]
  simp only [Option.bind_eq_bind, Option.bind_some, restOfLine?_feed]
  cases hint with
  | true =>
    simp only [if_true] at hlead ⊢
    rw [if_neg (by decide), ← hindent, hlead]
    simp only [Option.bind_some]
    rw [if_neg (by decide), hlines]
    rfl
  | false =>
    -- without a hint the indentation is that of the deepest blank line or of the first text
    have hmax : max deepest (max least 1) = indent := by
      rw [hdeepest rfl]
      omega
    simp only [Bool.false_eq_true, if_false, if_true] at hlead ⊢
    rw [hlead]
    simp only [Option.bind_some]
    rw [hmax, hlines]
    rfl

/-- A block with its last line ended. -/
theorem endLine_literalText {indent : Nat} {s : List Char} (hs : s ≠ []) :
    endLine (literalText indent s) =
      '|' :: ((if s.head?.any fun c => isSpace c || isBreak c then ['2'] else []) ++
        chompingText s ++
        '\n' :: (literalBody indent true s ++ if s.getLast?.any isBreak then [] else ['\n'])) := by
  have hne : literalBody indent true s ≠ [] := by
    intro h
    have hlast := getLast?_literalBody indent true s
    rw [h, List.getLast?_nil, eq_comm, List.getLast?_eq_none_iff] at hlast
    exact hs hlast
  -- the block ends as the text does, so a break is added only if the text has none there
  have hlast : (literalText indent s).getLast? = s.getLast? := by
    rw [literalText, List.cons_append, List.cons_append, List.getLast?_cons_of_ne_nil (by simp),
      List.getLast?_append_of_ne_nil _ (List.cons_ne_nil _ _),
      List.getLast?_cons_of_ne_nil hne, getLast?_literalBody]
  rw [endLine, hlast]
  split <;> simp [literalText]

/-- The last line of a text is ended once, and the chomping of the text says how many of the breaks
that follow belong to it. -/
theorem chompingText_spec {s lead core trail : List Char} (hs : s = lead ++ core ++ trail)
    (hcore : Core core) (htrail : ∀ c ∈ trail, isBreak c = true) :
    ∃ (chomping : Chomping) (b : Char) (bs : List Char), chompingText s = chomping.text ∧
      trail ++ (if s.getLast?.any isBreak then [] else ['\n']) = b :: bs ∧
      (if chomping = .strip then [] else [b]) ++ (if chomping = .keep then bs else []) = trail := by
  obtain ⟨d, hd⟩ := Option.isSome_iff_exists.mp (List.getLast?_isSome.mpr hcore.nonempty)
  have hinside : isBreak d = false := by
    have hlast := hcore.last
    rwa [hd] at hlast
  have hfront : (lead ++ core).getLast? = some d := by
    rw [List.getLast?_append_of_ne_nil _ hcore.nonempty, hd]
  rcases List.eq_nil_or_concat' trail with rfl | ⟨others, c, rfl⟩
  · -- the text does not end with a break
    obtain ⟨front, hsplit⟩ : ∃ front, s = front ++ [d] := by
      rw [hs, List.append_nil]
      exact ⟨_, (List.dropLast_append_getLast? d hfront).symm⟩
    refine ⟨.strip, '\n', [], ?_, ?_, rfl⟩
    · rw [hsplit, chompingText_concat, if_neg (by simp [hinside])]
      rfl
    · rw [hsplit, List.getLast?_concat, if_neg (by simp [hinside])]
      rfl
  · have hc : isBreak c = true := htrail c (by simp)
    have hsplit : s = (lead ++ core ++ others) ++ [c] := by rw [hs]; simp
    have hended : (if s.getLast?.any isBreak then [] else ['\n']) = [] := by
      rw [hsplit, List.getLast?_concat, if_pos (by simp [hc])]
    rw [hended, List.append_nil, hsplit, chompingText_concat, if_pos hc]
    rcases List.eq_nil_or_concat' others with rfl | ⟨rest, e, rfl⟩
    · -- a single break at the end
      refine ⟨.clip, c, [], ?_, rfl, rfl⟩
      rw [List.append_nil, hfront, if_neg (by simp [hinside])]
      rfl
    · -- several breaks at the end
      obtain ⟨b, bs, hcons⟩ := List.exists_cons_of_ne_nil
        (show (rest ++ [e]) ++ [c] ≠ [] by simp)
      refine ⟨.keep, b, bs, ?_, hcons, by rw [hcons]; rfl⟩
      rw [← List.append_assoc, List.getLast?_concat, if_pos (by simp [htrail e (by simp)])]
      rfl

/-- White space is asked for a width of the indentation in the header. -/
def needsHint (s : List Char) : Bool := s.head?.any fun c => isSpace c || isBreak c

/-- The beginning of a block up to its core. Without a width in the header it is found from the
first line, which then begins with neither a space nor a break. -/
theorem blockGap?_lead {s lead core trail : List Char} (hprintable : ∀ c ∈ s, isPrintable c = true)
    (hsplit : s = lead ++ core ++ trail) (hlead : ∀ c ∈ lead, isBreak c = true) (hcore : Core core)
    {indent : Nat} (hpos : 0 < indent) {after : List Char} (hafter : after.head? = core.head?) :
    blockGap? (if needsHint s then indent else 0) 0 0 (lead ++ (spaces indent ++ after)) =
      some (lead, indent, indent, after) := by
  have hcontent : ∀ d ∈ after.head?, isBreak d = false := by
    rw [hafter]
    intro d hd
    simpa using (Option.any_eq_false _ _).mp hcore.head d hd
  cases hhint : needsHint s with
  | true =>
    have hbreaks : ∀ d ∈ lead, isPrintable d = true ∧ isBreak d = true := fun d hd =>
      ⟨hprintable d (by rw [hsplit]; simp [hd]), hlead d hd⟩
    rw [if_pos rfl, blockGap?_line hpos hbreaks hcontent, Nat.zero_max]
  | false =>
    -- a text that begins with a break asks for a width
    obtain rfl : lead = [] := by
      cases lead with
      | nil => rfl
      | cons d others =>
        rw [hsplit] at hhint
        simp [needsHint, hlead d List.mem_cons_self] at hhint
    have hblank : ∀ d ∈ after.head?, isBlank d = false := by
      rw [hafter]
      intro d hd
      cases hb : isBlank d with
      | false => rfl
      | true =>
        have hmem : d ∈ s := by rw [hsplit]; simp [List.mem_of_head? hd]
        obtain rfl := eq_of_isPrintable_isBlank (hprintable d hmem) hb
        have hfront : s.head? = some ' ' := by
          rw [hsplit, List.nil_append, List.head?_append, hd]
          rfl
        rw [needsHint, hfront] at hhint
        exact nomatch hhint
    rw [if_neg (by decide), List.nil_append, blockGap?_spaces indent (.inl rfl) fun d hd =>
      ⟨hcontent d hd, fun h => by rw [hblank d hd] at h; exact nomatch h⟩, Nat.zero_max]

section

variable {s : List Char} {least indent k : Nat} {body : List Char}

/-- A block of nothing but breaks keeps them all. There is no line that would show the indentation,
so it is written in the header. -/
theorem block?_breaks (hs : s ≠ []) (hprintable : ∀ c ∈ s, isPrintable c = true)
    (hall : ∀ c ∈ s, isBreak c = true) (hindent : indent = least - 1 + 2) (hk : k < indent)
    (hbody : Solid body) :
    block? true least ((endLine (literalText indent s)).drop 1 ++ (spaces k ++ body)) =
      some (s, body) := by
  obtain ⟨front, c, rfl⟩ := (List.eq_nil_or_concat' s).resolve_left hs
  -- a text of nothing but breaks needs a hint, and its breaks are kept
  have hhint : needsHint (front ++ [c]) = true := by
    cases front with
    | nil => simp [needsHint, hall c (by simp)]
    | cons d rest => simp [needsHint, hall d (by simp)]
  have hkeep : chompingText (front ++ [c]) = Chomping.keep.text := by
    have hfront : front.getLast?.all isBreak = true := by
      rw [Option.all_eq_true]
      intro d hd
      exact hall d (List.mem_append_left _ (List.mem_of_getLast? hd))
    rw [chompingText_concat, if_pos (hall c (by simp)), if_pos hfront]
    rfl
  have hwritten : literalBody indent true (front ++ [c]) = front ++ [c] := by
    have h := literalBody_breaks indent hall []
    rwa [List.append_nil, literalBody, List.append_nil] at h
  have hgap : blockGap? indent 0 0 (front ++ [c] ++ (spaces k ++ body)) =
      some (front ++ [c], k, k, body) := by
    rw [blockGap?_end hk (fun d hd => ⟨hprintable d hd, hall d hd⟩) hbody, Nat.zero_max]
  rw [endLine_literalText hs, ← needsHint, hhint, hkeep, hwritten, List.getLast?_concat,
    if_pos (show (some c).any isBreak = true from hall c (by simp)), List.append_nil,
    List.drop_succ_cons, List.drop_zero, List.append_assoc, List.cons_append,
    block?_parts true hindent hgap nofun (blockLines?_stop body (Nat.ne_of_lt hk))]
  simp

/-- A block around a core reads the lines of the core one by one. How many breaks follow the last
line is told by the chomping in the header. -/
theorem block?_core {lead core trail : List Char} (hprintable : ∀ c ∈ s, isPrintable c = true)
    (hsplit : s = lead ++ core ++ trail) (hlead : ∀ c ∈ lead, isBreak c = true) (hcore : Core core)
    (htrail : ∀ c ∈ trail, isBreak c = true) (hindent : indent = least - 1 + 2) (hk : k < indent)
    (hbody : Solid body) :
    block? true least ((endLine (literalText indent s)).drop 1 ++ (spaces k ++ body)) =
      some (s, body) := by
  have hpos : 0 < indent := by omega
  have hs : s ≠ [] := by
    rintro rfl
    simp [hcore.nonempty] at hsplit
  obtain ⟨chomping, b, bs, hchomping, hlast, htail⟩ := chompingText_spec hsplit hcore htrail
  obtain ⟨hwritten, c, rest, -, hhead, hfirst⟩ := hcore.literalBody_eq indent
  have hbreaks : ∀ d ∈ b :: bs, isPrintable d = true ∧ isBreak d = true := by
    intro d hd
    rw [← hlast, List.mem_append] at hd
    rcases hd with hd | hd
    · exact ⟨hprintable d (by rw [hsplit]; simp [hd]), htrail d hd⟩
    · split at hd
      · exact nomatch hd
      · rw [List.mem_singleton.mp hd]
        decide
  generalize hafter : literalBody indent false core ++ b :: (bs ++ (spaces k ++ body)) = after
  have hlines : blockLines? true indent (after.length + 1) false [] lead indent after =
      some ([] ++ lead ++ core, [b], bs, body) := by
    rw [← hafter]
    refine blockLines?_core hpos hk hbody hbreaks _ core false [] lead hcore ?_
    have hlength := length_le_literalBody indent false core
    simp only [List.length_append]
    omega
  have hgap := blockGap?_lead hprintable hsplit hlead hcore hpos
    (show after.head? = core.head? by rw [← hafter, hfirst, hhead]; rfl)
  -- the indentation stands in front of the core only, since empty lines have none
  have htext : literalBody indent true s ++ (if s.getLast?.any isBreak then [] else ['\n']) ++
      (spaces k ++ body) = lead ++ (spaces indent ++ after) := by
    have hparts : literalBody indent true s =
        lead ++ (spaces indent ++ (literalBody indent false core ++ trail)) := by
      rw [hsplit, List.append_assoc, literalBody_breaks _ hlead, literalBody_append_breaks htrail,
        hwritten, List.append_assoc]
    rw [hparts, ← hafter]
    simp only [List.append_assoc]
    rw [← List.append_assoc trail, hlast]
    simp
  rw [endLine_literalText hs, ← needsHint, List.drop_succ_cons, List.drop_zero, List.append_assoc,
    List.cons_append, htext, hchomping, block?_parts _ hindent hgap (fun _ => rfl) hlines,
    List.append_assoc, htail, List.nil_append, ← hsplit]

/-- **A literal block is read as the text it was written for.** -/
theorem block?_literalText (hs : allowsBlock s = true) (hindent : indent = least - 1 + 2)
    (hk : k < indent) (hbody : Solid body) :
    block? true least ((endLine (literalText indent s)).drop 1 ++ (spaces k ++ body)) =
      some (s, body) := by
  simp only [allowsBlock, needsEscapes, Bool.and_eq_true, Bool.not_eq_true', Bool.or_eq_false_iff,
    List.any_eq_false, Bool.not_eq_false] at hs
  obtain ⟨⟨hempty, hprintable, -⟩, -⟩ := hs
  have hne : s ≠ [] := by
    rintro rfl
    exact nomatch hempty
  -- the text is line breaks alone, or has lines between those at its two ends
  rcases exists_core hprintable with hall | ⟨lead, core, trail, hsplit, hlead, hcore, htrail⟩
  · exact block?_breaks hne hprintable hall hindent hk hbody
  · exact block?_core hprintable hsplit hlead hcore htrail hindent hk hbody

end

end ModelGraph.Yaml
