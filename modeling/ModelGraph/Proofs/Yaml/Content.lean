import ModelGraph.Proofs.Yaml.Block
import ModelGraph.Proofs.Yaml.Leaf
import ModelGraph.Proofs.Yaml.Lexer

/-!
# Tokens of leaves

Every leaf is split off as one token with its style and its text, at the end of a line and as a key
in front of a colon.

- `WrittenAs`: the written form of a leaf, by its style.
- `moves_leaf`: a leaf at the end of its line.
- `reads_simpleKey`: a text as a key.
-/

namespace ModelGraph.Yaml

/-- The token of a leaf. -/
def leafToken (v : Scalar) : Token := .scalar (leafStyle v) (String.ofList (leafChars v))

/-- How the text of a leaf is written in each style, and what the style asks of the text. No leaf is
written as a folded block. -/
inductive WrittenAs (indent : Nat) (s : List Char) : Style → List Char → Prop where
  /-- As it is. -/
  | plain (stays : StaysPlain s) : WrittenAs indent s .plain s
  /-- In single quotes. -/
  | single (allowed : allowsSingle s = true) (noFeed : '\n' ∉ s) :
    WrittenAs indent s .single ('\'' :: singleBody indent false s)
  /-- In double quotes, which any text can stand in. -/
  | double : WrittenAs indent s .double ('"' :: (s.flatMap escaped ++ ['"']))
  /-- As a literal block. -/
  | literal (allowed : allowsBlock s = true) (feed : '\n' ∈ s) :
    WrittenAs indent s .literal (literalText indent s)

/-- A text is written in the style that is chosen for it, and the style allows for it. -/
theorem scalarText_writtenAs (indent : Nat) (s : List Char) :
    WrittenAs indent s (styleOf s) (scalarText indent s) := by
  have hspec := styleOf_spec s
  rw [scalarText]
  generalize styleOf s = style at hspec
  cases style with
  | plain => exact .plain (staysPlain_of_allowsPlain (ofText_of_isText hspec.1).2 hspec.2)
  | single => exact .single hspec.1 hspec.2
  | literal => exact .literal hspec.1 hspec.2
  | double => exact .double
  | folded => exact hspec.elim

/-- A leaf is written in its style. All leaves but texts stay plain. -/
theorem leafText_writtenAs (indent : Nat) (v : Scalar) :
    WrittenAs indent (leafChars v) (leafStyle v) (leafText indent v) := by
  have hplain : leafStyle v = .plain → StaysPlain (leafChars v) := staysPlain_leafChars
  cases v with
  | text s => exact scalarText_writtenAs indent s.toList
  | int _ => exact .plain (hplain rfl)
  | wide _ => exact .plain (hplain rfl)
  | float _ => exact .plain (hplain rfl)
  | bool _ => exact .plain (hplain rfl)

/-! ## Ends of lines -/

/-- A line that does not end with a break gets a line feed. -/
theorem endLine_of_not_isBreak {s : List Char} (h : s.getLast?.any isBreak = false) :
    endLine s = s ++ ['\n'] := by
  rw [endLine, h]
  rfl

/-- A plain scalar is such a line. -/
theorem StaysPlain.endLine {s : List Char} (h : StaysPlain s) : endLine s = s ++ ['\n'] := by
  refine endLine_of_not_isBreak ?_
  rw [Option.any_eq_false]
  intro c hc
  simp [h.not_isBreak c (List.mem_of_getLast? hc)]

/-! ## Plain scalars -/

/-- Three equal characters in front of a text stand in front of its start, where the text goes on
with another character. -/
theorem eq_triple_of_append {s tail rest : List Char} {c d : Char} (hcd : c ≠ d)
    (h : s ++ c :: tail = d :: d :: d :: rest) : ∃ others, s = d :: d :: d :: others := by
  match s with
  | [] => exact absurd (List.cons.inj h).1 hcd
  | [_] => exact absurd (List.cons.inj (List.cons.inj h).2).1 hcd
  | [_, _] => exact absurd (List.cons.inj (List.cons.inj (List.cons.inj h).2).2).1 hcd
  | _ :: _ :: _ :: others =>
    simp only [List.cons_append, List.cons.injEq] at h
    obtain ⟨rfl, rfl, rfl, -⟩ := h
    exact ⟨others, rfl⟩

/-- A text that does not begin like the mark of a document does not become one by what follows. -/
theorem isDocumentMark_append {s : List Char} (h : beginsLikeDocument s = false) {c : Char}
    (hc : c ≠ '-' ∧ c ≠ '.') (tail : List Char) : isDocumentMark (s ++ c :: tail) = false := by
  unfold isDocumentMark
  split
  · rename_i rest hmark
    obtain ⟨others, rfl⟩ := eq_triple_of_append hc.1 hmark
    exact nomatch h
  · rename_i rest hmark
    obtain ⟨others, rfl⟩ := eq_triple_of_append hc.2 hmark
    exact nomatch h
  · rfl

namespace Lexer

section

variable {m : Mark} {allowed : Bool} {indents : List Nat} {tokens : List Token}

/-- What begins with no indicator, or with one of a block inside a word, is read as a plain
scalar. -/
theorem readToken_eq_readPlain {l : Lexer} {first : Char} {rest : List Char}
    (hrest : l.rest = first :: rest) (hflow : l.inFlow = false)
    (hmark : isDocumentMark (first :: rest) = false) (hblank : isBlank first = false)
    (hleading : isLeadingIndicator first = false)
    (hword : endsWord rest = true → first ≠ '?' ∧ first ≠ ':' ∧ first ≠ '-') :
    l.readToken = l.readPlain := by
  simp only [isLeadingIndicator, List.contains_eq_mem, decide_eq_false_iff_not, List.mem_cons,
    List.not_mem_nil, or_false, not_or] at hleading
  have hpercent : (first == '%') = false := by simp [hleading]
  -- the last test before a plain scalar, which comes after all the indicators
  have hbegins : (!isIndicator first || (first = '-' && !(rest.head?.any isBlank)) ||
      (!false && (first == '?' || first == ':') && !endsWord rest)) = true := by
    cases hend : endsWord rest with
    | true => simp [isIndicator, hleading, hword hend]
    | false =>
      have hhead : rest.head?.any isBlank = false := by
        cases rest with
        | nil => exact absurd hend (by decide)
        | cons d others => exact (Bool.or_eq_false_iff.mp hend).1
      by_cases hminus : first = '-'
      · simp [hminus, hhead]
      · by_cases hquestion : first = '?' ∨ first = ':'
        · rcases hquestion with rfl | rfl <;> simp
        · rw [not_or] at hquestion
          simp [isIndicator, hleading, hquestion, hminus]
  -- the three indicators of a block count only at the end of a word
  have hinside : ∀ c, c = '?' ∨ c = ':' ∨ c = '-' →
      (decide (first = c) && endsWord rest) = false := by
    rintro c hc
    cases hend : endsWord rest with
    | false => exact Bool.and_false _
    | true =>
      obtain ⟨hquestion, hcolon, hminus⟩ := hword hend
      rw [Bool.and_true, decide_eq_false_iff_not]
      rcases hc with rfl | rfl | rfl <;> assumption
  unfold readToken
  rw [hrest]
  simp only [hpercent, hmark, hflow, hleading, hinside '-' (by simp), hinside '?' (by simp),
    hinside ':' (by simp), Bool.and_false, Bool.false_or, Bool.false_eq_true, if_false,
    decide_false, Bool.false_and, hbegins, if_true, hblank]

/-- A plain scalar is taken for nothing else. -/
theorem readToken_plain {s : List Char} (hs : StaysPlain s) {c : Char} (hc : c ≠ '-' ∧ c ≠ '.')
    (tail : List Char) :
    (inBlock (s ++ c :: tail) m allowed indents tokens).readToken =
      (inBlock (s ++ c :: tail) m allowed indents tokens).readPlain := by
  have hmark := isDocumentMark_append hs.marks hc tail
  obtain ⟨first, rest, rfl⟩ := List.exists_cons_of_ne_nil hs.nonempty
  obtain ⟨hblank, hleading, hword⟩ := hs.first
  refine readToken_eq_readPlain rfl rfl hmark hblank hleading fun hend => hword ?_
  -- what follows the scalar does not begin in its first word
  cases rest with
  | nil => rfl
  | cons d others => exact hend

/-- Where content of a block may stand, by the columns of the collections around it. -/
def least : List Nat → Nat
  | [] => 0
  | column :: _ => column + 1

/-- The least column of a state depends only on its collections. -/
theorem leastColumn_eq (l : Lexer) : l.leastColumn = least l.indents := by
  unfold leastColumn least
  cases l.indents <;> rfl

/-- Right of the innermost collection content may stand. -/
theorem least_le {column : Nat} (h : ∀ i ∈ indents.head?, i < column) : least indents ≤ column := by
  cases indents with
  | nil => exact Nat.zero_le _
  | cons i rest => exact h i rfl

/-- Right of the innermost collection no key has to begin. -/
theorem head?_ne_of_lt {column : Nat} (h : ∀ i ∈ indents.head?, i < column) :
    indents.head? ≠ some column := fun heq => Nat.lt_irrefl column (h column heq)

/-- A place to spare on an earlier line is given up. -/
theorem dropStalePlaces_of_line_lt {l : Lexer} {line : Nat} {place : Option KeyPlace}
    (houter : l.outerPlaces = []) (h : Spare line place) (hline : line < l.mark.line) :
    (l.withPlace place).dropStalePlaces = some (l.withPlace none) := by
  have hdrop : (l.withPlace place).dropStale place = some none := dropStale_of_line_lt h hline
  show (Option.bind (dropStale _ place) _) = _
  rw [hdrop]
  show (Option.bind (l.outerPlaces.mapM _) _) = _
  rw [houter]
  simp only [List.mapM_nil, withPlace]
  rw [← houter]
  rfl

/-- A plain scalar, from what the text in front of the rest is read as. -/
theorem readPlain_inBlock {s text rest : List Char} {broken : Bool} {place : Option KeyPlace}
    (hsave : (inBlock (s ++ rest) m allowed indents tokens).savePlace =
      some ((inBlock (s ++ rest) m allowed indents tokens).withPlace place))
    (hread : plain false (least indents) m.column Gap.none (s ++ rest) =
      some (text, broken, rest)) :
    (inBlock (s ++ rest) m allowed indents tokens).readPlain =
      some ((inBlock rest (m.over s) broken indents
        (.scalar .plain (String.ofList text) :: tokens)).withPlace place) := by
  rw [readPlain, hsave]
  show (Option.bind (plain false (leastColumn _) m.column Gap.none _) _) = _
  rw [leastColumn_eq]
  show (Option.bind (plain false (least indents) m.column Gap.none (s ++ rest)) _) = _
  rw [hread]
  simp [withPlace, inBlock, goTo, push, consumed_append]

/-- A plain scalar up to the end of its line. What follows on the next line is not inside the block
any more, or the text ends there. -/
theorem moves_plain {s : List Char} (hs : StaysPlain s) {body : List Char} (hbody : Solid body)
    {k : Nat} (hk : k < least indents ∨ body = []) (hindents : ∀ i ∈ indents.head?, i < m.column) :
    ∃ m' : Mark, m'.column = k ∧
      Moves (inBlock (s ++ '\n' :: (spaces k ++ body)) m allowed indents tokens)
        (facing body m' true indents (.scalar .plain (String.ofList s) :: tokens)) := by
  obtain ⟨m', hline, hcolumn, hover⟩ :=
    Mark.over_append_break (show isBreak '\n' = true from rfl) (by decide) m s (spaces k)
  rw [Mark.over_spaces] at hover
  have htext : s ++ '\n' :: (spaces k ++ body) = (s ++ '\n' :: spaces k) ++ body := by simp
  -- the text is read up to its break, and the spaces of the next line with it
  have hread : plain false (least indents) m.column Gap.none (s ++ '\n' :: (spaces k ++ body)) =
      some (s, true, body) :=
    plain_line hs (Nat.le_succ_of_le (least_le hindents)) hbody hk
  have htoken : (inBlock (s ++ '\n' :: (spaces k ++ body)) m allowed indents tokens).readToken =
      (inBlock (s ++ '\n' :: (spaces k ++ body)) m allowed indents tokens).readPlain :=
    readToken_plain hs (by decide) _
  rw [htext] at hread htoken ⊢
  obtain ⟨place, hsave, hspare⟩ :=
    savePlace_inBlock ((s ++ '\n' :: spaces k) ++ body) allowed tokens (head?_ne_of_lt hindents)
  refine ⟨m'.right k, by rw [Mark.right_column, hcolumn, Nat.zero_add], ?_⟩
  refine moves_over (by simp) hbody ?_
  rw [take, htoken, readPlain_inBlock hsave hread, Option.bind_some, hover,
    dropStalePlaces_of_line_lt rfl hspare hline]
  rfl

/-- The two kinds of quotes. -/
inductive Quote : Char → Style → (Nat → Gap → List Char → Option (List Char × List Char)) →
    Prop where
  | single : Quote '\'' .single single
  | double : Quote '"' .double double

/-- The token of a scalar in quotes. -/
def quotedToken (style : Style) (quoted : Nat → Gap → List Char → Option (List Char × List Char))
    (l : Lexer) : Option (Token × List Char) :=
  (quoted (l.mark.column + 1) Gap.none (l.rest.drop 1)).map fun (text, rest) =>
    (.scalar style (String.ofList text), rest)

/-- A quote begins a quoted scalar of its kind. -/
theorem readToken_quote {quote : Char} {style : Style}
    {quoted : Nat → Gap → List Char → Option (List Char × List Char)} (h : Quote quote style quoted)
    (s : List Char) :
    (inBlock (quote :: s) m allowed indents tokens).readToken =
      (inBlock (quote :: s) m allowed indents tokens).readContent (quotedToken style quoted) := by
  have hquoted : (inBlock (quote :: s) m allowed indents tokens).readToken =
      (inBlock (quote :: s) m allowed indents tokens).readQuoted style quoted := by
    cases h <;> simp [readToken, inBlock, isDocumentMark]
  rw [hquoted]
  rfl

/-- A quoted scalar up to the end of its line. -/
theorem moves_quoted {quote : Char} {style : Style}
    {quoted : Nat → Gap → List Char → Option (List Char × List Char)} (h : Quote quote style quoted)
    {s written body : List Char} (hbody : Solid body) (k : Nat)
    (hread : quoted (m.column + 1) Gap.none (written ++ '\n' :: (spaces k ++ body)) =
      some (s, '\n' :: (spaces k ++ body)))
    (hindents : ∀ i ∈ indents.head?, i < m.column) :
    ∃ m' : Mark, m'.column = k ∧
      Moves (inBlock (quote :: written ++ '\n' :: (spaces k ++ body)) m allowed indents tokens)
        (facing body m' true indents (.scalar style (String.ofList s) :: tokens)) := by
  refine moves_content (quotedToken style quoted) (List.cons_ne_nil _ _) hbody
    (head?_ne_of_lt hindents) (readToken_quote h _) fun place => ?_
  show (quoted (m.column + 1) Gap.none (written ++ '\n' :: (spaces k ++ body))).map _ = _
  rw [hread]
  rfl

/-- A literal block ends with a break. -/
theorem endLine_literalText_concat {s : List Char} (hs : allowsBlock s = true) (indent : Nat) :
    ∃ front c, endLine (literalText indent s) = '|' :: (front ++ [c]) ∧ isBreak c = true ∧
      c ≠ '\r' := by
  simp only [allowsBlock, needsEscapes, Bool.and_eq_true, Bool.not_eq_true', Bool.or_eq_false_iff,
    List.any_eq_false, Bool.not_eq_false] at hs
  obtain ⟨⟨hempty, hprintable, -⟩, -⟩ := hs
  have hne : s ≠ [] := by
    rintro rfl
    exact absurd hempty (by decide)
  obtain ⟨c, hc⟩ := Option.isSome_iff_exists.mp (List.getLast?_isSome.mpr hne)
  rw [endLine_literalText hne, hc]
  generalize
    (if s.head?.any fun c => isSpace c || isBreak c then ['2'] else []) ++ chompingText s = header
  -- a text that ends with a break is written with it, and any other one gets a line feed
  by_cases hbreak : isBreak c = true
  · have hlast : (literalBody indent true s).getLast? = some c := by rw [getLast?_literalBody, hc]
    obtain ⟨front, hfront⟩ : ∃ front, literalBody indent true s = front ++ [c] :=
      ⟨_, (List.dropLast_append_getLast? c hlast).symm⟩
    refine ⟨header ++ '\n' :: front, c, ?_, hbreak, ?_⟩
    · simp [hbreak, hfront]
    · rintro rfl
      exact absurd (hprintable _ (List.mem_of_getLast? hc)) (by decide)
  · refine ⟨header ++ '\n' :: literalBody indent true s, '\n', ?_, rfl, by decide⟩
    simp [hbreak]

/-- A literal block up to the end of its last line. -/
theorem moves_literal {s body : List Char} (hs : allowsBlock s = true) (hbody : Solid body)
    {indent k : Nat} (hindent : indent = least indents - 1 + 2) (hk : k < indent) :
    ∃ m' : Mark, m'.column = k ∧
      Moves
        (inBlock (endLine (literalText indent s) ++ (spaces k ++ body)) m allowed indents tokens)
        (facing body m' true indents (.scalar .literal (String.ofList s) :: tokens)) := by
  have hread := block?_literalText hs hindent hk hbody
  obtain ⟨front, c, htext, hbreak, hreturn⟩ := endLine_literalText_concat hs indent
  obtain ⟨m', -, hcolumn, hover⟩ :=
    Mark.over_append_break hbreak hreturn m ('|' :: front) (spaces k)
  rw [Mark.over_spaces] at hover
  rw [htext, List.drop_succ_cons, List.drop_zero] at hread
  -- the reader stops in front of `body`, so the spaces of the next line are consumed as well
  have hsplit : '|' :: (front ++ [c]) ++ (spaces k ++ body) =
      ('|' :: front ++ c :: spaces k) ++ body := by
    simp
  have hconsumed : consumed ('|' :: (front ++ [c]) ++ (spaces k ++ body)) body =
      '|' :: front ++ c :: spaces k := by rw [hsplit, consumed_append]
  have hblock :
      (inBlock ('|' :: (front ++ [c]) ++ (spaces k ++ body)) m allowed indents tokens).readToken =
      (inBlock ('|' :: (front ++ [c]) ++ (spaces k ++ body)) m allowed indents tokens).readBlock
        .literal := by
    simp [readToken, inBlock, isDocumentMark, inFlow]
  refine ⟨m'.right k, by rw [Mark.right_column, hcolumn, Nat.zero_add], ?_⟩
  rw [htext, hsplit]
  refine moves_over (by simp) hbody ?_
  rw [← hsplit, take, hblock, readBlock]
  show (Option.bind (Option.bind
    (block? true (leastColumn _) (front ++ [c] ++ (spaces k ++ body))) _) _) = _
  rw [leastColumn_eq]
  show (Option.bind (Option.bind
    (block? true (least indents) (front ++ [c] ++ (spaces k ++ body))) _) _) = _
  rw [hread]
  simp only [Option.bind_some]
  rw [goTo]
  show dropStalePlaces
    (push ⟨body, m.over (consumed ('|' :: (front ++ [c]) ++ (spaces k ++ body)) body), _, _, _,
    _, _, _⟩ _) = _
  rw [hconsumed, hover]
  rfl

/-- A written leaf up to the end of its last line. One case for each style that a leaf is written
in. -/
theorem moves_writtenAs {indent : Nat} {s text : List Char} {style : Style}
    (h : WrittenAs indent s style text) {body : List Char} (hbody : Solid body) {k : Nat}
    (hindent : indent = least indents - 1 + 2) (hk : k < indent)
    (hleft : k < least indents ∨ body = []) (hindents : ∀ i ∈ indents.head?, i < m.column) :
    ∃ m' : Mark, m'.column = k ∧
      Moves (inBlock (endLine text ++ (spaces k ++ body)) m allowed indents tokens)
        (facing body m' true indents (.scalar style (String.ofList s) :: tokens)) := by
  cases h with
  | plain hplain =>
    rw [hplain.endLine, List.append_assoc, List.singleton_append]
    exact moves_plain hplain hbody hleft hindents
  | single hsingle hfeed =>
    -- the closing quote is never a line break, so the line is ended
    have hlast : ('\'' :: singleBody indent false s).getLast?.any isBreak = false := by
      rw [List.getLast?_cons, getLast?_singleBody]
      rfl
    rw [endLine_of_not_isBreak hlast, List.append_assoc, List.singleton_append]
    exact moves_quoted .single hbody k
      (single_singleBody hsingle hfeed (.inl (by omega)) (Nat.succ_pos _) (by simp)) hindents
  | double =>
    have hlast : ('"' :: (s.flatMap escaped ++ ['"'])).getLast?.any isBreak = false := by
      rw [← List.cons_append, List.getLast?_concat]
      rfl
    rw [endLine_of_not_isBreak hlast, List.append_assoc, List.singleton_append]
    refine moves_quoted .double hbody k ?_ hindents
    rw [List.append_assoc, List.singleton_append]
    exact double_escaped _ _ (Nat.succ_pos _)
  | literal hblock => exact moves_literal hblock hbody hindent hk

/-- **A leaf is one token** up to the end of its last line. The line that follows stands left of the
content of the block, unless the text ends. -/
theorem moves_leaf (v : Scalar) {body : List Char} (hbody : Solid body) {indent k : Nat}
    (hindent : indent = least indents - 1 + 2) (hk : k < indent)
    (hleft : k < least indents ∨ body = []) (hindents : ∀ i ∈ indents.head?, i < m.column) :
    ∃ m' : Mark, m'.column = k ∧
      Moves (inBlock (endLine (leafText indent v) ++ (spaces k ++ body)) m allowed indents tokens)
        (facing body m' true indents (leafToken v :: tokens)) :=
  moves_writtenAs (leafText_writtenAs indent v) hbody hindent hk hleft hindents

/-! ## Keys -/

/-- A quoted scalar as a key. -/
theorem readToken_quotedKey {quote : Char} {style : Style}
    {quoted : Nat → Gap → List Char → Option (List Char × List Char)} (h : Quote quote style quoted)
    {s written v : List Char} (hline : ∀ c ∈ written, isBreak c = false)
    (hread : quoted (m.column + 1) Gap.none (written ++ ':' :: v) = some (s, ':' :: v)) :
    (inBlock (quote :: written ++ ':' :: v) m true indents tokens).readToken =
      some ((inBlock (':' :: v) (m.right (quote :: written).length) false indents
        (.scalar style (String.ofList s) :: tokens)).withPlace
          (some (keyPlace m indents tokens))) := by
  have hquote : isBreak quote = false := by cases h <;> decide
  -- the key is on one line, so the mark only moves to the right
  have hover : m.over (quote :: written) = m.right (quote :: written).length :=
    Mark.over_line (List.forall_mem_cons.mpr ⟨hquote, hline⟩) m
  rw [List.cons_append, readToken_quote h, readContent, savePlace_key]
  show (Option.bind ((quoted (m.column + 1) Gap.none (written ++ ':' :: v)).map _) _) = _
  rw [hread]
  show some (push (goTo _ (':' :: v)) _) = _
  rw [goTo]
  show some
    (push ⟨_, m.over (consumed (quote :: written ++ ':' :: v) (':' :: v)), _, _, _, _, _, _⟩ _) = _
  rw [consumed_append, hover]
  rfl

/-- A plain scalar as a key. -/
theorem readToken_plainKey {s v : List Char} (hs : StaysPlain s) (hv : endsWord v = true)
    (hindents : ∀ i ∈ indents.head?, i ≤ m.column) :
    (inBlock (s ++ ':' :: v) m true indents tokens).readToken =
      some ((inBlock (':' :: v) (m.right s.length) false indents
        (.scalar .plain (String.ofList s) :: tokens)).withPlace
          (some (keyPlace m indents tokens))) := by
  -- inside the mapping the key stands at its column, which is one too low for content
  have hleast : least indents ≤ m.column + 1 := by
    cases indents with
    | nil => exact Nat.zero_le _
    | cons i rest => exact Nat.succ_le_succ (hindents i rfl)
  have hover : m.over s = m.right s.length := Mark.over_line hs.not_isBreak m
  rw [readToken_plain hs (by decide), readPlain_inBlock (savePlace_key _) (plain_key hs hleast hv),
    hover]

end

end Lexer

/-- A text has at least as many bytes as characters. A printer counts the bytes of a key and a
reader its characters, and this is the direction that a short key needs. -/
theorem length_le_utf8ByteSize (s : List Char) : s.length ≤ (String.ofList s).utf8ByteSize := by
  induction s with
  | nil => exact Nat.zero_le _
  | cons c rest ih =>
    have hc := c.utf8Size_pos
    rw [String.ofList_cons, String.utf8ByteSize_append, String.utf8ByteSize_singleton,
      List.length_cons]
    omega

namespace Lexer

section

variable {m : Mark} {indents indents' : List Nat} {tokens tokens' : List Token}

/-- A collection that is entered at a column has no other one right of it. -/
theorem Enters.le {column : Nat} {start : Token}
    (h : Enters column start indents tokens indents' tokens') :
    ∀ i ∈ indents.head?, i ≤ column := by
  cases h with
  | opening hleft => exact fun i hi => Nat.le_of_lt (hleft i hi)
  | inside =>
    intro i hi
    exact Nat.le_of_eq (Option.some.inj hi).symm

/-- A key is a key once the content in front of its colon is read: the colon puts the beginning of a
mapping and of a key in front of its token. -/
theorem reads_key {s v : List Char} {t : Token} (hs : s ≠ []) (hlength : s.length ≤ 1024)
    (hv : endsWord v = true)
    (h : Enters m.column .blockMappingStart indents tokens indents' tokens')
    (hread : (inBlock (s ++ ':' :: v) m true indents tokens).readToken =
      some ((inBlock (':' :: v) (m.right s.length) false indents (t :: tokens)).withPlace
        (some (keyPlace m indents tokens)))) :
    ∃ (b : Lexer) (m' : Mark),
      Moves (inBlock (s ++ ':' :: v) m true indents tokens) b ∧
      b.take = some (inBlock v m' false indents' (.value :: t :: .key :: tokens')) ∧
      m.column ≤ m'.column ∧ v.length < b.rest.length :=
  ⟨_, _, moves_key hs hlength h.le hread, take_keyColon (List.length_pos_iff.mpr hs) hv h,
    Nat.le_add_right .., Nat.lt_succ_self _⟩

/-- A short text on one line is a key, in each of the styles that keep it there. How long it is as
written is bounded by its length in each style, and a place is kept for a key of 1024 characters. -/
theorem reads_writtenAs {indent : Nat} {s text v : List Char} {style : Style}
    (hs : WrittenAs indent s style text) (hline : isMultiline s = false) (hshort : s.length ≤ 128)
    (hv : endsWord v = true)
    (h : Enters m.column .blockMappingStart indents tokens indents' tokens') :
    ∃ (b : Lexer) (m' : Mark),
      Moves (inBlock (text ++ ':' :: v) m true indents tokens) b ∧
      b.take = some (inBlock v m' false indents'
        (.value :: .scalar style (String.ofList s) :: .key :: tokens')) ∧
      m.column ≤ m'.column ∧ v.length < b.rest.length := by
  cases hs with
  | plain hplain =>
    exact reads_key hplain.nonempty (by omega) hv h (readToken_plainKey hplain hv h.le)
  | single hsingle hfeed =>
    obtain ⟨hchars, hlength⟩ := singleBody_line indent hline
    refine reads_key (List.cons_ne_nil _ _) (by rw [List.length_cons]; omega) hv h
      (readToken_quotedKey .single hchars ?_)
    exact single_singleBody hsingle hfeed (.inr hline) (Nat.succ_pos _) (by simp)
  | double =>
    have hlength := length_flatMap_escaped s
    refine reads_key (List.cons_ne_nil _ _)
      (by rw [List.length_cons, List.length_append, List.length_singleton]; omega) hv h
      (readToken_quotedKey .double ?_ ?_)
    · intro c hc
      rcases List.mem_append.mp hc with hc | hc
      · obtain ⟨d, -, hd⟩ := List.mem_flatMap.mp hc
        exact ((escaped_chars d).1 c hd).2
      · rw [List.mem_singleton.mp hc]
        decide
    · rw [List.append_assoc, List.singleton_append]
      exact double_escaped _ _ (Nat.succ_pos _)
  | literal _ hfeed =>
    -- a literal block is only chosen for several lines
    rw [isMultiline, List.any_eq_false] at hline
    exact absurd rfl (hline _ hfeed)

/-- **A simple key is a key.** -/
theorem reads_simpleKey {key : String} (hkey : isSimpleKey key = true) (indent : Nat)
    {v : List Char} (hv : endsWord v = true)
    (h : Enters m.column .blockMappingStart indents tokens indents' tokens') :
    ∃ (b : Lexer) (m' : Mark),
      Moves (inBlock (scalarText indent key.toList ++ ':' :: v) m true indents tokens) b ∧
      b.take = some (inBlock v m' false indents'
        (.value :: leafToken (.text key) :: .key :: tokens')) ∧ m.column ≤ m'.column ∧
      v.length < b.rest.length := by
  rw [isSimpleKey, Bool.and_eq_true, decide_eq_true_eq, Bool.not_eq_true'] at hkey
  obtain ⟨hline, hbytes⟩ := hkey
  -- a character takes at least one byte
  have hshort : key.toList.length ≤ 128 := by
    have hlength := length_le_utf8ByteSize key.toList
    rw [String.ofList_toList] at hlength
    omega
  exact reads_writtenAs (scalarText_writtenAs indent key.toList) hline hshort hv h

end

end Lexer

end ModelGraph.Yaml
