import ModelGraph.FileTree.Path
import ModelGraph.Proofs.Text.Split

/-!
# Laws of paths

What a path leads through is told by its names: the pieces between slashes that carry a meaning. A
path is joined from names, its parent loses the last one, and replacing the last one leaves the
others. From the names follows the place that a path leads to, if it leads anywhere.

- `Path.names`: the pieces of a path that carry a meaning.
- `names_join`, `names_of_parent?`, `names_of_fileName?`: what building and taking apart a path
  does.
- `Path.Plain`: a name that leads down, whatever is there.
- `Path.place`, `place_join`, `place_of_fileName?`: where a path leads from a working directory.
-/

namespace ModelGraph.Path

/-! ## Names -/

/-- The pieces of a path that carry a meaning: names, and the two dots that lead up. -/
def names (path : String) : List String := (segments path).filter (· ≠ ".")

/-- The names of a path in one step, without the segments between. -/
theorem names_eq (path : String) :
    names path =
      ((Text.pieces '/' path.toList).map String.ofList).filter (fun piece => !isIdle piece) := by
  rw [names, segments, List.filter_filter]
  refine List.filter_congr fun piece _ => ?_
  exact Bool.eq_iff_iff.mpr (by simp [isIdle, and_comm])

/-- The path without text has no names. -/
@[simp]
theorem names_empty : names "" = [] := by decide

/-- A name that leads down to a place, whatever is there. Dots are left out since they stay or lead
up, and slashes since they make several names of one. -/
structure Plain (name : String) : Prop where
  nonempty : name ≠ ""
  notDot : name ≠ "."
  notDots : name ≠ ".."
  noSlash : '/' ∉ name.toList

instance (name : String) : Decidable (Plain name) :=
  decidable_of_iff (name ≠ "" ∧ name ≠ "." ∧ name ≠ ".." ∧ '/' ∉ name.toList)
    ⟨fun ⟨h, h', h'', h'''⟩ => ⟨h, h', h'', h'''⟩, fun h => ⟨h.1, h.2, h.3, h.4⟩⟩

/-- A long suffix makes a plain name of any text without slashes. -/
theorem plain_append {text suffix : String} (htext : '/' ∉ text.toList)
    (hlength : 2 < suffix.length) (hsuffix : '/' ∉ suffix.toList) : Plain (text ++ suffix) := by
  have hne : ∀ short : String, short.length ≤ 2 → text ++ suffix ≠ short := by
    intro short hshort heq
    -- the suffix alone is longer than any of the names that are not plain
    rw [← heq, String.length_append] at hshort
    omega
  refine ⟨hne "" (by decide), hne "." (by decide), hne ".." (by decide), fun hmem => ?_⟩
  rw [String.toList_append] at hmem
  exact (List.mem_append.mp hmem).elim htext hsuffix

/-- A text without slashes is plain unless it is idle or leads up. -/
theorem plain_iff {name : String} (h : '/' ∉ name.toList) :
    Plain name ↔ isIdle name = false ∧ name ≠ ".." := by
  rw [isIdle, Bool.or_eq_false_iff, beq_eq_false_iff_ne, beq_eq_false_iff_ne]
  exact ⟨fun hname => ⟨⟨hname.nonempty, hname.notDot⟩, hname.notDots⟩,
    fun hname => ⟨hname.1.1, hname.1.2, hname.2, h⟩⟩

/-- A plain name carries a meaning. -/
theorem Plain.isIdle {name : String} (h : Plain name) : isIdle name = false :=
  ((plain_iff h.noSlash).mp h).1

/-- A text without slashes does not begin at the root. -/
theorem isAbsolute_of_noSlash {part : String} (h : '/' ∉ part.toList) :
    isAbsolute part = false := by
  rw [isAbsolute, beq_eq_false_iff_ne]
  exact fun hhead => h (List.mem_of_head? hhead)

/-- The pieces of a path with a part put behind it are those of the path and the part, but for
pieces without text. -/
theorem segments_join (base : String) {part : String} (h : '/' ∉ part.toList) :
    segments (join base part) = segments base ++ [part].filter (· ≠ "") := by
  have hpart : Text.pieces '/' part.toList = [part.toList] := Text.pieces_of_not_mem h
  have hbehind : ∀ s : List Char,
      ((Text.pieces '/' (s ++ '/' :: part.toList)).map String.ofList).filter (· ≠ "") =
        ((Text.pieces '/' s).map String.ofList).filter (· ≠ "") ++ [part].filter (· ≠ "") := by
    intro s
    rw [Text.pieces_append, hpart, List.map_append, List.filter_append, List.map_singleton,
      String.ofList_toList]
  rw [join, if_neg (by simp [isAbsolute_of_noSlash h])]
  -- without a base there is nothing in front, and a slash is put in between unless there is one
  by_cases hempty : base = ""
  · subst hempty
    simp [segments, hpart, Text.pieces]
  · by_cases hclosed : base.toList.getLast? = some '/'
    · obtain ⟨before, hbefore⟩ := List.getLast?_eq_some_iff.mp hclosed
      rw [if_pos (by simp [hclosed]), segments, segments, String.toList_append, hbefore,
        List.append_assoc, List.singleton_append, hbehind, Text.pieces_append]
      simp [Text.pieces]
    · rw [if_neg (by simp [hempty, hclosed]), segments, segments, String.toList_append,
        String.toList_append, List.append_assoc]
      exact hbehind base.toList

/-- A path with a part put behind it begins where the path begins. -/
theorem isAbsolute_join (base : String) {part : String} (h : '/' ∉ part.toList) :
    isAbsolute (join base part) = isAbsolute base := by
  rw [join, if_neg (by simp [isAbsolute_of_noSlash h])]
  by_cases hempty : base = ""
  · subst hempty
    have hnone : isAbsolute "" = false := rfl
    simpa [hnone] using isAbsolute_of_noSlash h
  · -- a base that is not empty gives the first character
    have hhead : ∀ t : String, (base ++ t).toList.head? = base.toList.head? := by
      intro t
      rw [String.toList_append]
      cases hbase : base.toList with
      | nil => exact absurd (String.toList_eq_nil_iff.mp hbase) hempty
      | cons c rest => rfl
    split
    · rw [isAbsolute, hhead, isAbsolute]
    · rw [isAbsolute, String.append_assoc, hhead, isAbsolute]

/-- A part put behind a path comes last among its names, unless it is idle. -/
theorem names_join_part (base : String) {part : String} (h : '/' ∉ part.toList) :
    names (join base part) = names base ++ [part].filter (fun piece => !isIdle piece) := by
  rw [names, segments_join base h, List.filter_append, names, List.filter_filter]
  refine congrArg _ (List.filter_congr fun piece _ => Bool.eq_iff_iff.mpr ?_)
  simp [isIdle, and_comm]

/-- A plain name put behind a path comes last among its names. -/
theorem names_join (base : String) {name : String} (h : Plain name) :
    names (join base name) = names base ++ [name] := by
  rw [names_join_part base h.noSlash]
  simp [h.isIdle]

/-! ## Taking apart -/

/-- Pieces without meaning at the end of a path are none of its names. -/
theorem filter_dropIdleEnd (pieces : List String) :
    (dropIdleEnd pieces).filter (fun piece => !isIdle piece) =
      pieces.filter (fun piece => !isIdle piece) := by
  have hfront : ∀ l : List String,
      (l.dropWhile isIdle).filter (fun piece => !isIdle piece) =
        l.filter (fun piece => !isIdle piece) := by
    intro l
    induction l with
    | nil => rfl
    | cons piece rest ih =>
      cases hpiece : isIdle piece with
      | true => simpa [hpiece] using ih
      | false => simp [hpiece]
  -- dropping at the end is dropping in front of the reversed pieces
  rw [dropIdleEnd, List.filter_reverse, hfront, ← List.filter_reverse, List.reverse_reverse]

/-- Dropping pieces at the end adds none. -/
theorem mem_of_mem_dropIdleEnd {pieces : List String} {piece : String}
    (h : piece ∈ dropIdleEnd pieces) : piece ∈ pieces := by
  have hsub := (List.dropWhile_sublist isIdle (l := pieces.reverse)).subset (List.mem_reverse.mp h)
  exact List.mem_reverse.mp hsub

/-- The last piece that is left carries a meaning. -/
theorem isIdle_of_getLast?_dropIdleEnd {pieces : List String} {piece : String}
    (h : (dropIdleEnd pieces).getLast? = some piece) : isIdle piece = false := by
  rw [dropIdleEnd, List.getLast?_reverse] at h
  have hhead := List.head?_dropWhile_not isIdle pieces.reverse
  rw [h] at hhead
  exact hhead

/-- What is known of the pieces that a path is taken apart into. The first piece is without text for
a path from the root, which is the only piece that may be, and so the pieces tell where the path
begins. Everything about parents and names of paths is derived from this. -/
structure Divided (path first : String) (rest : List String) : Prop where
  split : Path.split path = (first, rest)
  names : Path.names path = (first :: rest).filter (fun piece => !isIdle piece)
  noSlash : ∀ piece ∈ first :: rest, '/' ∉ piece.toList
  absolute : isAbsolute path = true ↔ first = "" ∧ path ≠ ""
  last : ∀ piece, rest.getLast? = some piece → isIdle piece = false

/-- A path begins at the root if its first piece has no text, but for the path without text, whose
only piece is empty as well. -/
theorem isAbsolute_iff_of_pieces {path : String} {first : List Char} {rest : List (List Char)}
    (h : Text.pieces '/' path.toList = first :: rest) :
    isAbsolute path = true ↔ String.ofList first = "" ∧ path ≠ "" := by
  rw [isAbsolute, beq_iff_eq]
  cases hpath : path.toList with
  | nil => simp [String.toList_eq_nil_iff.mp hpath]
  | cons c others =>
    have hne : path ≠ "" := fun hempty => by simp [hempty] at hpath
    rw [hpath, Text.pieces] at h
    by_cases hc : c = '/'
    · rw [if_pos hc] at h
      cases h
      simp [hc, hne]
    · -- the first piece takes the first character in
      rw [if_neg hc] at h
      cases hothers : Text.pieces '/' others with
      | nil => exact absurd hothers (Text.pieces_ne_nil others)
      | cons more rest =>
        rw [hothers] at h
        cases h
        simp [hc]

/-- Every path is taken apart in this way: into its first piece and the pieces behind it that carry
a meaning, with idle ones between them. -/
theorem exists_divided (path : String) : ∃ first rest, Divided path first rest := by
  cases hpieces : Text.pieces '/' path.toList with
  | nil => exact absurd hpieces (Text.pieces_ne_nil _)
  | cons first tail =>
    -- the pieces between slashes are the ones that the path is divided into
    have hslash : ∀ piece ∈ first :: tail, '/' ∉ piece := fun piece hpiece =>
      Text.not_mem_of_mem_pieces (hpieces ▸ hpiece)
    refine ⟨String.ofList first, dropIdleEnd (tail.map String.ofList), ?_⟩
    exact {
      split := by rw [split, hpieces]
      names := by
        rw [names_eq, hpieces, List.map_cons, List.filter_cons, List.filter_cons,
          filter_dropIdleEnd]
      noSlash := by
        refine List.forall_mem_cons.mpr ⟨?_, fun piece hpiece => ?_⟩
        · simpa using hslash first List.mem_cons_self
        · obtain ⟨s, hs, rfl⟩ := List.mem_map.mp (mem_of_mem_dropIdleEnd hpiece)
          simpa using hslash s (List.mem_cons_of_mem first hs)
      absolute := isAbsolute_iff_of_pieces hpieces
      last := fun _ hpiece => isIdle_of_getLast?_dropIdleEnd hpiece }

/-- A path has one piece only, or it has a last one behind the first. -/
theorem Divided.cases {path first : String} {rest : List String} (_ : Divided path first rest) :
    rest = [] ∨ ∃ init last, rest = init ++ [last] := by
  rcases List.eq_nil_or_concat rest with hnil | ⟨init, last, hconcat⟩
  · exact .inl hnil
  · exact .inr ⟨init, last, hconcat.trans List.concat_eq_append⟩

/-- The text of pieces without slashes has these pieces again. -/
theorem names_joined (first : String) (rest : List String)
    (h : ∀ piece ∈ first :: rest, '/' ∉ piece.toList) :
    names (Text.joined "/" (first :: rest)) =
      (first :: rest).filter (fun piece => !isIdle piece) := by
  rw [names_eq, Text.pieces_joined first rest h, List.map_map]
  have hsame : String.ofList ∘ String.toList = id := funext fun _ => String.ofList_toList
  rw [hsame, List.map_id]

/-- The text of pieces begins at the root exactly if the first piece has no text. A single piece
without text would give the path without text, which does not. -/
theorem isAbsolute_joined {first : String} (rest : List String) (h : '/' ∉ first.toList)
    (hrest : first = "" → rest ≠ []) :
    isAbsolute (Text.joined "/" (first :: rest)) = (first == "") := by
  cases rest with
  | nil =>
    have hfirst : first ≠ "" := fun hempty => hrest hempty rfl
    rw [Text.joined, isAbsolute_of_noSlash h, beq_eq_false_iff_ne.mpr hfirst]
  | cons next others =>
    rw [Text.joined]
    · by_cases hempty : first = ""
      · subst hempty
        simp [isAbsolute]
      · -- the text begins as its first piece does, and that is no slash
        rw [beq_eq_false_iff_ne.mpr hempty, isAbsolute, beq_eq_false_iff_ne, String.append_assoc,
          String.toList_append]
        cases hlist : first.toList with
        | nil => exact absurd (String.toList_eq_nil_iff.mp hlist) hempty
        | cons c more =>
          intro hhead
          rw [hlist, ← Option.some.inj hhead] at h
          exact h List.mem_cons_self
    · exact List.cons_ne_nil _ _

/-- The last piece of a path is its last name, if it is not the first piece as well. -/
theorem Divided.names_concat {path first last : String} {init : List String}
    (h : Divided path first (init ++ [last])) :
    Path.names path = (first :: init).filter (fun piece => !isIdle piece) ++ [last] := by
  have hlast : isIdle last = false := h.last last List.getLast?_concat
  rw [h.names, ← List.cons_append, List.filter_append]
  simp [hlast]

/-- The parent of a path with a piece behind its first one is made of the pieces in front of it. -/
theorem Divided.parent?_eq {path first last : String} {init : List String}
    (h : Divided path first (init ++ [last])) :
    parent? path = some (unsplit (isAbsolute path) first (dropIdleEnd init)) := by
  have hdrop : (init ++ [last]).dropLast = init := List.dropLast_concat
  rw [parent?, h.split]
  cases init with
  | nil => rfl
  | cons next others => exact congrArg (fun l => some (unsplit _ first (dropIdleEnd l))) hdrop

/-- A path with a piece behind its first one has a parent, which has all names but the last. Idle
pieces at its end are dropped with it. -/
theorem Divided.parent {path first last : String} {init : List String}
    (h : Divided path first (init ++ [last])) : ∃ parent, parent? path = some parent ∧
      Path.names path = Path.names parent ++ [last] ∧ isAbsolute parent = isAbsolute path := by
  have hslash : ∀ piece ∈ first :: dropIdleEnd init, '/' ∉ piece.toList := by
    refine List.forall_mem_cons.mpr ⟨h.noSlash first List.mem_cons_self, fun piece hpiece => ?_⟩
    exact h.noSlash piece (List.mem_cons_of_mem _
      (List.mem_append_left _ (mem_of_mem_dropIdleEnd hpiece)))
  have hfilter : (first :: init).filter (fun piece => !isIdle piece) =
      (first :: dropIdleEnd init).filter (fun piece => !isIdle piece) := by
    rw [List.filter_cons, List.filter_cons, filter_dropIdleEnd]
  refine ⟨_, h.parent?_eq, ?_⟩
  rw [h.names_concat, hfilter, unsplit]
  by_cases hroot : (isAbsolute path && (dropIdleEnd init).isEmpty) = true
  · -- the parent is the root, which has no names
    obtain ⟨habsolute, hempty⟩ := Bool.and_eq_true_iff.mp hroot
    have hfirst : first = "" := (h.absolute.mp habsolute).1
    rw [if_pos hroot, List.isEmpty_iff.mp hempty, hfirst, habsolute]
    exact ⟨congrArg (· ++ [last]) (by decide), by decide⟩
  · -- a path from the root has pieces left behind its first one, which is without text
    have habsolute : first = "" → isAbsolute path = true := fun hfirst =>
      h.absolute.mpr ⟨hfirst, fun hpath => by
        have hnone : (Path.split "").2 = [] := by decide
        rw [← hpath, h.split] at hnone
        exact List.append_ne_nil_of_right_ne_nil init (List.cons_ne_nil last []) hnone⟩
    rw [if_neg hroot, names_joined _ _ hslash,
      isAbsolute_joined _ (h.noSlash first List.mem_cons_self)]
    · refine ⟨rfl, Bool.eq_iff_iff.mpr ⟨fun hfirst => habsolute (beq_iff_eq.mp hfirst),
        fun hpath => ?_⟩⟩
      exact beq_iff_eq.mpr (h.absolute.mp hpath).1
    · intro hfirst hempty
      exact hroot (by simp [habsolute hfirst, hempty])

/-- **The parent of a path loses its last name** and begins where the path begins. This holds also
where pieces without meaning stand at the end of the path or of its parent. -/
theorem names_of_parent? {path parent : String} (h : parent? path = some parent) :
    names parent = (names path).dropLast ∧ isAbsolute parent = isAbsolute path := by
  obtain ⟨first, rest, hpath⟩ := exists_divided path
  rcases hpath.cases with rfl | ⟨init, last, rfl⟩
  · -- a single piece has a parent unless it is empty
    simp only [parent?, hpath.split] at h
    by_cases hfirst : first = ""
    · simp [hfirst] at h
    · rw [if_neg (by simpa using hfirst)] at h
      cases h
      have habsolute : isAbsolute path = false :=
        Bool.eq_false_iff.mpr fun h => hfirst (hpath.absolute.mp h).1
      rw [hpath.names, habsolute]
      refine ⟨?_, rfl⟩
      cases hidle : isIdle first <;> simp [hidle]
  · obtain ⟨parent', hparent, hnames, habsolute⟩ := hpath.parent
    -- there is only one parent, and it has been described above
    cases h.symm.trans hparent
    rw [hnames, List.dropLast_concat]
    exact ⟨rfl, habsolute⟩

/-- The name of a path with a piece behind its first one is this piece, unless it leads up. -/
theorem Divided.fileName? {path first last : String} {init : List String}
    (h : Divided path first (init ++ [last])) :
    Path.fileName? path = (some last).filter (· ≠ "..") := by
  rw [Path.fileName?, h.split]
  cases init with
  | nil => rfl
  | cons next others =>
    change (next :: others ++ [last]).getLast?.filter (· ≠ "..") = _
    rw [List.getLast?_concat]

/-- The name of a path is plain. The path has a parent, and the name comes last behind the names of
the parent. -/
theorem names_of_fileName? {path name : String} (h : fileName? path = some name) :
    Plain name ∧ ∃ parent, parent? path = some parent ∧ names path = names parent ++ [name] ∧
      isAbsolute parent = isAbsolute path := by
  obtain ⟨first, rest, hpath⟩ := exists_divided path
  have hplain : ∀ piece ∈ first :: rest, isIdle piece = false → piece ≠ ".." → Plain piece :=
    fun piece hmem hidle hdots => (plain_iff (hpath.noSlash piece hmem)).mpr ⟨hidle, hdots⟩
  rcases hpath.cases with rfl | ⟨init, last, rfl⟩
  · -- a single piece is the name itself, and its parent is the empty path
    simp only [fileName?, hpath.split] at h
    obtain ⟨hname, hfirst⟩ := Option.ite_none_left_eq_some.mp h
    cases hfirst
    simp only [Bool.or_eq_true, beq_iff_eq, not_or, Bool.not_eq_true] at hname
    have hfirst : Plain name := hplain name List.mem_cons_self hname.1 hname.2
    have hrelative : isAbsolute path = false :=
      Bool.eq_false_iff.mpr fun h => hfirst.nonempty (hpath.absolute.mp h).1
    refine ⟨hfirst, "", ?_, ?_, hrelative.symm⟩
    · simp [parent?, hpath.split, hfirst.nonempty]
    · rw [hpath.names]
      simp [hname.1]
  · rw [hpath.fileName?] at h
    obtain ⟨hsome, hdots⟩ := Option.filter_eq_some_iff.mp h
    cases hsome
    obtain ⟨parent, hparent⟩ := hpath.parent
    have hidle : isIdle name = false := hpath.last name List.getLast?_concat
    exact ⟨hplain name (by simp) hidle (by simpa using hdots), parent, hparent⟩

/-- The paths above a path lead through its first names, and begin where it begins. So nothing
beside the way to a path is ever touched for its sake. -/
theorem names_of_mem_upwards {path above : String} (h : above ∈ upwards path) :
    names above <+: names path ∧ isAbsolute above = isAbsolute path := by
  unfold upwards at h
  generalize path.length + 1 = steps at h
  induction steps generalizing path with
  | zero => exact nomatch h
  | succ steps ih =>
    -- it is the path itself, or one above its parent
    rcases List.mem_cons.mp h with rfl | h
    · exact ⟨List.prefix_rfl, rfl⟩
    · cases hparent : parent? path with
      | none =>
        rw [hparent] at h
        exact nomatch h
      | some parent =>
        rw [hparent] at h
        obtain ⟨hnames, habsolute⟩ := names_of_parent? hparent
        obtain ⟨hbegins, habove⟩ := ih h
        exact ⟨hbegins.trans (hnames ▸ List.dropLast_prefix _), habove.trans habsolute⟩

/-! ## Paths of files -/

/-- The path ends in a name, not in dots or a slash. -/
structure EndsInName (path : String) : Prop where
  name : ∃ name, (segments path).getLast? = some name ∧ name ≠ "." ∧ name ≠ ".."
  notClosed : path.toList.getLast? ≠ some '/'

/-- A path with a plain name put behind it ends in this name. -/
theorem endsInName_join (base : String) {name : String} (h : Plain name) :
    EndsInName (join base name) := by
  constructor
  · refine ⟨name, ?_, h.notDot, h.notDots⟩
    rw [segments_join base h.noSlash]
    simp [h.nonempty]
  -- whatever is in front, the text of the path ends with the name
  · obtain ⟨front, hfront⟩ : ∃ front, (join base name).toList = front ++ name.toList := by
      rw [join, if_neg (by simp [isAbsolute_of_noSlash h.noSlash])]
      split
      · exact ⟨base.toList, String.toList_append⟩
      · exact ⟨(base ++ "/").toList, String.toList_append⟩
    intro hslash
    -- the text ends as the name does, which has no slash
    have hne : name.toList ≠ [] := fun hnil => h.nonempty (String.toList_eq_nil_iff.mp hnil)
    rw [hfront, List.getLast?_append, List.getLast?_eq_some_getLast hne, Option.some_or] at hslash
    exact h.noSlash (Option.some.inj hslash ▸ List.getLast_mem hne)

/-- A path that ends in a name has a name. -/
theorem EndsInName.fileName? {path : String} (h : EndsInName path) :
    ∃ name, Path.fileName? path = some name := by
  obtain ⟨name, hlast, hdot, hdots⟩ := h.name
  -- the last segment is the last name as well
  have hnames : (names path).getLast? = some name := by
    obtain ⟨before, hbefore⟩ := List.getLast?_eq_some_iff.mp hlast
    rw [names, hbefore, List.filter_append, List.filter_cons_of_pos (by simpa using hdot)]
    exact List.getLast?_concat
  obtain ⟨first, rest, hpath⟩ := exists_divided path
  rcases hpath.cases with rfl | ⟨init, last, rfl⟩
  · rw [hpath.names] at hnames
    cases hidle : isIdle first with
    | true => simp [hidle] at hnames
    | false =>
      obtain rfl : first = name := by simpa [hidle] using hnames
      refine ⟨first, ?_⟩
      simp [Path.fileName?, hpath.split, hidle, hdots]
  · obtain ⟨parent, -, hparent, -⟩ := hpath.parent
    rw [hparent, List.getLast?_concat] at hnames
    cases hnames
    exact ⟨name, by rw [hpath.fileName?, Option.filter_some, if_pos (by simpa using hdots)]⟩

/-! ## Siblings -/

/-- A name consists of its stem, or of its stem and an extension behind a point. So the stem is
always what the name begins with. -/
theorem cutAtPoint_cases (name : String) :
    (cutAtPoint name).1 = name ∨ ∃ rest : List Char,
      name.toList = (cutAtPoint name).1.toList ++ '.' :: rest := by
  unfold cutAtPoint
  have hsplit := List.takeWhile_append_dropWhile (p := fun c => decide (c ≠ '.'))
    (l := name.toList.reverse)
  dsimp only
  split
  · exact .inl rfl
  · exact .inl rfl
  · rename_i point before hne hdrop
    -- what stopped the search from the end is the last point
    have hpoint : point = '.' := by
      have hhead := List.head?_dropWhile_not (fun c => decide (c ≠ '.')) name.toList.reverse
      rw [hdrop] at hhead
      simpa using hhead
    rw [hdrop, hpoint] at hsplit
    refine .inr ⟨(name.toList.reverse.takeWhile (fun c => decide (c ≠ '.'))).reverse, ?_⟩
    have hname := congrArg List.reverse hsplit
    rw [List.reverse_reverse] at hname
    refine hname.symm.trans ?_
    rw [String.toList_ofList, List.reverse_append, List.reverse_cons, List.append_assoc,
      List.singleton_append]

/-- A stem has no slash either. -/
theorem Plain.stem {name : String} (h : Plain name) : '/' ∉ (cutAtPoint name).1.toList := by
  rcases cutAtPoint_cases name with hsame | ⟨rest, hrest⟩
  -- there is no point to cut at, or what is cut off does not matter
  · rw [hsame]
    exact h.noSlash
  · exact fun hmem => h.noSlash (hrest ▸ List.mem_append_left _ hmem)

/-- What is put behind the stem of a name gives another name, unless it begins with a point. The
files beside a descriptor are named in this way, so none of them is the descriptor by its stem
alone. -/
theorem cutAtPoint_append_ne (name : String) {suffix : String} (hsuffix : suffix ≠ "")
    (hpoint : suffix.toList.head? ≠ some '.') : (cutAtPoint name).1 ++ suffix ≠ name := by
  intro hsame
  have hlist := congrArg String.toList hsame
  rw [String.toList_append] at hlist
  rcases cutAtPoint_cases name with hstem | ⟨rest, hrest⟩
  -- a name that is all stem would have to be as long as itself and the suffix
  · rw [hstem] at hlist
    exact hsuffix (String.toList_eq_nil_iff.mp (List.append_right_eq_self.mp hlist))
  · rw [hrest] at hlist
    -- behind the stem of the name stands a point, and so the suffix would begin with it
    rw [List.append_cancel_left hlist] at hpoint
    exact hpoint rfl

/-- Replacing the name of a path is putting another one behind its parent. -/
theorem withFileName_eq {path name parent : String} (h : fileName? path = some name)
    (hparent : parent? path = some parent) (other : String) :
    withFileName path other = join parent other := by
  rw [withFileName, h, hparent]
  rfl

/-! ## Places -/

/-- Where a piece of a path leads from a place. -/
def follow (place : List String) (piece : String) : List String :=
  if piece = "." then place else if piece = ".." then place.dropLast else place ++ [piece]

/-- Where a path leads if the working directory is `home`. -/
def place (home : List String) (path : String) : List String :=
  (names path).foldl follow (if isAbsolute path then [] else home)

/-- The place of a path by its segments. Single dots lead nowhere, so it does not matter whether
they are dropped before. -/
theorem place_eq (home : List String) (path : String) :
    place home path = (segments path).foldl follow (if isAbsolute path then [] else home) := by
  rw [place, names]
  generalize (if isAbsolute path then [] else home) = begin
  induction segments path generalizing begin with
  | nil => rfl
  | cons piece rest ih =>
    by_cases hpiece : piece = "."
    · rw [List.filter_cons_of_neg (by simp [hpiece]), List.foldl_cons, follow, if_pos hpiece, ih]
    · rw [List.filter_cons_of_pos (by simp [hpiece]), List.foldl_cons, List.foldl_cons, ih]

/-- A plain name leads one level down. -/
theorem follow_plain {name : String} (h : Plain name) (place : List String) :
    follow place name = place ++ [name] := by
  rw [follow, if_neg h.notDot, if_neg h.notDots]

/-- A path without two dots leads down through all its names. -/
theorem place_of_down {path : String} (h : ".." ∉ segments path) (home : List String) :
    place home path = (if isAbsolute path then [] else home) ++ names path := by
  rw [place]
  generalize (if isAbsolute path then [] else home) = begin
  have hdown : ∀ piece ∈ names path, piece ≠ "." ∧ piece ≠ ".." := by
    intro piece hpiece
    obtain ⟨hmem, hdot⟩ := List.mem_filter.mp hpiece
    exact ⟨by simpa using hdot, fun heq => h (heq ▸ hmem)⟩
  -- from here on it only matters that no piece leads up
  generalize names path = pieces at hdown ⊢
  induction pieces generalizing begin with
  | nil => simp
  | cons piece rest ih =>
    obtain ⟨hpiece, hrest⟩ := List.forall_mem_cons.mp hdown
    rw [List.foldl_cons, ih _ hrest, follow, if_neg hpiece.1, if_neg hpiece.2, List.append_assoc]
    rfl

/-- A plain name put behind a path leads down from where the path leads. -/
theorem place_join (home : List String) (base : String) {name : String} (h : Plain name) :
    place home (join base name) = place home base ++ [name] := by
  rw [place, names_join base h, isAbsolute_join base h.noSlash, List.foldl_append, List.foldl_cons,
    List.foldl_nil, follow_plain h]
  rfl

/-- A path leads to its name in the place of its parent. Two paths with different names in one
directory therefore lead to different places. -/
theorem place_of_fileName? {path name : String} (h : fileName? path = some name) :
    Plain name ∧ ∃ parent, parent? path = some parent ∧
      ∀ home, place home path = place home parent ++ [name] := by
  obtain ⟨hplain, parent, hparent, hnames, habsolute⟩ := names_of_fileName? h
  refine ⟨hplain, parent, hparent, fun home => ?_⟩
  rw [place, hnames, ← habsolute, List.foldl_append, List.foldl_cons, List.foldl_nil,
    follow_plain hplain]
  rfl

/-- From a place, pieces lead no deeper than there are names among them. Two dots and single dots
count for nothing. -/
theorem length_foldl_follow_le (pieces : List String) :
    ∀ place : List String,
      (pieces.foldl follow place).length ≤ place.length + pieces.countP (· ≠ "..") := by
  induction pieces with
  | nil => exact fun place => Nat.le_refl _
  | cons piece rest ih =>
    intro place
    refine Nat.le_trans (ih (follow place piece)) ?_
    -- only a name leads one level down
    rw [List.countP_cons, follow]
    split
    · omega
    · split
      · rw [List.length_dropLast]
        omega
      · rename_i hdots
        rw [List.length_append, List.length_singleton, if_pos (by simpa using hdots)]
        omega

end ModelGraph.Path
