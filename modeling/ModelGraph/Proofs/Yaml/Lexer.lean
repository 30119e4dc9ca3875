import Mathlib.Logic.Relation
import ModelGraph.Proofs.Yaml.Char

/-!
# Steps of the splitting into tokens

Taking a token alternates with passing over the white space in front of the next one. This module
says what both do to the state where a block is written as a printer writes it: indentation by
spaces, no comments, one line break at the end of a line.

- `front`, `take`: the two halves of a step, and `Moves`: one after the other.
- `inBlock`, `facing`: the states between steps, before and after block collections end.
- `run_of_reads`: a run from its steps.
-/

namespace ModelGraph.Yaml

/-- What has been consumed of a text is what stands in front of the rest. -/
theorem consumed_append (s rest : List Char) : consumed (s ++ rest) rest = s := by
  simp [consumed]

namespace Lexer

/-! ## Halves of a step -/

/-- What comes before a token: white space is passed over and block collections end. -/
def front (l : Lexer) : Option Lexer := do
  let l ← (l.skipSpace (l.rest.length + 1)).dropStalePlaces
  some (l.unroll l.mark.column)

/-- A token at the front. -/
def take (l : Lexer) : Option Lexer := l.readToken.bind dropStalePlaces

/-- A step has its two halves in this order: the front of the text is found, then a token is taken
there. A run begins with a first half and ends with a second one, so `Moves` has them the other way
round. -/
theorem next_eq (l : Lexer) : l.next = l.front.bind take := by
  unfold next front take
  cases (l.skipSpace (l.rest.length + 1)).dropStalePlaces <;> rfl

/-- A token is taken, and the next one is in front. -/
def Moves (a b : Lexer) : Prop :=
  ∃ l, a.take = some l ∧ l.finished = false ∧ l.front = some b ∧ b.rest.length < a.rest.length

/-- Any number of tokens are taken. -/
def Reads : Lexer → Lexer → Prop := Relation.ReflTransGen Moves

/-- **A run is made of its steps.** Each takes some of the text, so the fuel lasts. -/
theorem run_of_reads {a b e : Lexer} (h : Reads a b) (hend : b.take = some e)
    (hfinished : e.finished = true) {l : Lexer} {fuel : Nat} (hfront : l.front = some a)
    (hfuel : a.rest.length < fuel) : run fuel l = (e.tokens.reverse, true) := by
  -- from the front of the run: each step uses up one unit of fuel and at least one character
  induction h using Relation.ReflTransGen.head_induction_on generalizing l fuel with
  | refl =>
    obtain ⟨fuel, rfl⟩ := Nat.exists_eq_add_one_of_ne_zero (Nat.ne_of_gt (Nat.zero_lt_of_lt hfuel))
    rw [run, next_eq, hfront, Option.bind_some, hend]
    simp [hfinished]
  | head hstep _ ih =>
    obtain ⟨fuel, rfl⟩ := Nat.exists_eq_add_one_of_ne_zero (Nat.ne_of_gt (Nat.zero_lt_of_lt hfuel))
    obtain ⟨l', htake, hopen, hfront', hshort⟩ := hstep
    rw [run, next_eq, hfront, Option.bind_some, htake]
    simp only [hopen, Bool.false_eq_true, if_false]
    exact ih hfront' (by omega)

/-! ## States between steps -/

/-- Outside flow collections, with no place where a key may have begun. -/
def inBlock (body : List Char) (m : Mark) (allowed : Bool) (indents : List Nat)
    (tokens : List Token) : Lexer where
  rest := body
  mark := m
  indents := indents
  place := none
  outerPlaces := []
  keyAllowed := allowed
  tokens := tokens
  finished := false

/-- The same state once the block collections right of the present column have ended. -/
def facing (body : List Char) (m : Mark) (allowed : Bool) (indents : List Nat)
    (tokens : List Token) : Lexer :=
  inBlock body m allowed (closeBlocks m.column indents tokens).1
    (closeBlocks m.column indents tokens).2

/-- No collection ends where the column is not left of the innermost one. -/
theorem closeBlocks_of_le {column : Nat} {indents : List Nat} (h : ∀ i ∈ indents.head?, i ≤ column)
    (tokens : List Token) : closeBlocks column indents tokens = (indents, tokens) := by
  cases indents with
  | nil => rfl
  | cons i rest => rw [closeBlocks, if_neg (Nat.not_lt.mpr (h i rfl))]

/-- Nothing ends as long as the column is not left of the innermost collection. -/
theorem facing_of_le {m : Mark} {indents : List Nat} (h : ∀ i ∈ indents.head?, i ≤ m.column)
    (body : List Char) (allowed : Bool) (tokens : List Token) :
    facing body m allowed indents tokens = inBlock body m allowed indents tokens := by
  rw [facing, closeBlocks_of_le h]

/-- The innermost collection ends where the column is left of it. -/
theorem facing_cons {m : Mark} {indent : Nat} (h : m.column < indent) (body : List Char)
    (allowed : Bool) (indents : List Nat) (tokens : List Token) :
    facing body m allowed (indent :: indents) tokens =
      facing body m allowed indents (.blockEnd :: tokens) := by
  rw [facing, closeBlocks, if_pos h, facing]

/-! ## White space -/

/-- Dropping spaces, and tabs where they count as white space. -/
theorem dropWhile_spaces {body : List Char} (h : Solid body) (tabs : Bool) (n : Nat) :
    (spaces n ++ body).dropWhile (fun c => c == ' ' || (tabs && c == '\t')) = body := by
  rw [List.dropWhile_append_of_pos]
  · cases body with
    | nil => rfl
    | cons c rest =>
      -- the body begins with no blank, so the spaces end there
      obtain ⟨hblank, -⟩ := solid_cons.mp h
      rw [isBlank, Bool.or_eq_false_iff] at hblank
      rw [List.dropWhile_cons_of_neg]
      simp [hblank.1, hblank.2]
  · intro c hc
    rw [List.eq_of_mem_replicate hc]
    rfl

/-- The mark of byte order at the beginning of a line is passed over. -/
def skipMark (l : Lexer) : Lexer :=
  match l.rest with
  | c :: rest => if l.mark.column = 0 && c == byteOrderMark then l.goTo rest else l
  | [] => l

/-- The white space of a line is passed over. -/
def skipBlanks (l : Lexer) : Lexer :=
  let tabs := l.inFlow || !l.keyAllowed
  l.goTo (l.rest.dropWhile fun c => c == ' ' || (tabs && c == '\t'))

/-- A comment is passed over. -/
def skipComment (l : Lexer) : Lexer :=
  match l.rest with
  | '#' :: _ => l.goTo (l.rest.dropWhile (!isBreak ·))
  | _ => l

/-- White space is passed over line by line. -/
theorem skipSpace_succ (fuel : Nat) (l : Lexer) :
    l.skipSpace (fuel + 1) =
      match l.skipMark.skipBlanks.skipComment.rest with
      | c :: _ =>
        if isBreak c then
          let l := l.skipMark.skipBlanks.skipComment.goTo
            (takeBreak l.skipMark.skipBlanks.skipComment.rest).2
          skipSpace fuel (if l.inFlow then l else { l with keyAllowed := true })
        else l.skipMark.skipBlanks.skipComment
      | [] => l.skipMark.skipBlanks.skipComment := rfl

/-- Nothing is passed over where no mark of byte order stands. -/
theorem skipMark_eq {l : Lexer} (h : l.rest.head? ≠ some byteOrderMark) : l.skipMark = l := by
  unfold skipMark
  split
  · rename_i c rest hrest
    have hc : c ≠ byteOrderMark := by
      rintro rfl
      exact h (by rw [hrest]; rfl)
    rw [if_neg (by simp [hc])]
  · rfl

/-- Nothing is passed over where no comment begins. -/
theorem skipComment_eq {l : Lexer} (h : l.rest.head? ≠ some '#') : l.skipComment = l := by
  unfold skipComment
  split
  · rename_i rest hrest
    exact absurd (by rw [hrest]; rfl) h
  · rfl

/-- Spaces in front of a text do not bring another character to its beginning. -/
theorem head?_spaces_append {n : Nat} {body : List Char} {c : Char} (hspace : c ≠ ' ')
    (h : body.head? ≠ some c) : (spaces n ++ body).head? ≠ some c := by
  cases n with
  | zero => exact h
  | succ n =>
    rw [spaces, List.replicate_succ, List.cons_append, List.head?_cons]
    exact fun heq => hspace (Option.some.inj heq).symm

/-- Spaces in front of something else than white space are passed over. -/
theorem skipSpace_spaces {l : Lexer} {n : Nat} {body : List Char}
    (hrest : l.rest = spaces n ++ body)
    (h : Solid body) (fuel : Nat) : l.skipSpace (fuel + 1) = l.goTo body := by
  -- a text that begins solidly begins with neither a byte order mark nor a comment
  have hmark : l.skipMark = l := by
    refine skipMark_eq ?_
    rw [hrest]
    exact head?_spaces_append (by decide) fun hc => (h _ hc).2.2.2 rfl
  have hblanks : l.skipBlanks = l.goTo body := by rw [skipBlanks, hrest, dropWhile_spaces h]
  have hcomment : (l.goTo body).skipComment = l.goTo body :=
    skipComment_eq fun hc => (h _ hc).2.2.1 rfl
  rw [skipSpace_succ, hmark, hblanks, hcomment]
  show (match body with | c :: _ => _ | [] => _) = _
  cases body with
  | nil => rfl
  | cons c rest =>
    simp only
    rw [if_neg (by simp [(solid_cons.mp h).2.1])]

/-- The line feed at the end of a line is passed over, and a key may begin behind it. -/
theorem skipSpace_feed {l : Lexer} {s : List Char} (hrest : l.rest = '\n' :: s)
    (hflow : l.inFlow = false) (fuel : Nat) :
    l.skipSpace (fuel + 1) = skipSpace fuel { l.goTo s with keyAllowed := true } := by
  -- at a line feed there is neither a mark, nor a blank, nor a comment to pass over
  have hmark : l.skipMark = l := skipMark_eq (by simp [hrest, byteOrderMark])
  have hblanks : l.skipBlanks = l := by
    have hdrop :
        l.rest.dropWhile (fun c => c == ' ' || ((l.inFlow || !l.keyAllowed) && c == '\t')) =
        l.rest := by
      rw [hrest, List.dropWhile_cons_of_neg (by simp)]
    rw [skipBlanks, hdrop, goTo, consumed, Nat.sub_self, List.take_zero, Mark.over_nil]
  have hcomment : l.skipComment = l := skipComment_eq (by simp [hrest])
  rw [skipSpace_succ, hmark, hblanks, hcomment, hrest]
  simp only
  rw [if_pos (by decide)]
  have hflow' : (l.goTo s).inFlow = false := hflow
  show skipSpace fuel (if (l.goTo s).inFlow then _ else _) = _
  rw [hflow']
  rfl

/-! ## In front of a token -/

/-- No key has to begin at the place, which lies on a line up to the given one. -/
def Spare (line : Nat) (place : Option KeyPlace) : Prop :=
  ∀ p ∈ place, p.required = false ∧ p.mark.line ≤ line

/-- A place to spare is kept or dropped without a fault. -/
theorem dropStale_of_spare (l : Lexer) {line : Nat} {place : Option KeyPlace}
    (h : Spare line place) :
    ∃ place', l.dropStale place = some place' ∧ Spare line place' := by
  cases place with
  | none => exact ⟨none, rfl, nofun⟩
  | some p =>
    rw [dropStale, (h p rfl).1]
    split
    · exact ⟨none, rfl, nofun⟩
    · exact ⟨some p, rfl, h⟩

/-- A place to spare on an earlier line is dropped. -/
theorem dropStale_of_line_lt {l : Lexer} {line : Nat} {place : Option KeyPlace}
    (h : Spare line place) (hline : line < l.mark.line) : l.dropStale place = some none := by
  cases place with
  | none => rfl
  | some p =>
    obtain ⟨hrequired, hle⟩ := h p rfl
    have hlt : p.mark.line < l.mark.line := by omega
    rw [dropStale, isStale, if_pos (by simp [hlt]), if_neg (by simp [hrequired])]

/-- Spaces in front of a token on the same line. -/
theorem front_spaces {body : List Char} (hbody : Solid body) (n : Nat) (m : Mark) (allowed : Bool)
    (indents : List Nat) (tokens : List Token) :
    (inBlock (spaces n ++ body) m allowed indents tokens).front =
      some (facing body (m.right n) allowed indents tokens) := by
  -- no key place is kept, so only the spaces are passed over
  have hskip : (inBlock (spaces n ++ body) m allowed indents tokens).skipSpace
      ((spaces n ++ body).length + 1) = inBlock body (m.right n) allowed indents tokens := by
    rw [skipSpace_spaces (show _ = spaces n ++ body from rfl) hbody, goTo]
    simp [inBlock, consumed_append, Mark.over_spaces]
  rw [front]
  show (Lexer.dropStalePlaces (skipSpace ((spaces n ++ body).length + 1) _)).bind _ = _
  rw [hskip]
  rfl

/-- The end of a line and the indentation of the next one. A place to spare is given up, as it is
stale on a new line. -/
theorem front_feed {body : List Char} (hbody : Solid body) (n : Nat) {l : Lexer}
    (hrest : l.rest = '\n' :: (spaces n ++ body)) (hflow : l.outerPlaces = [])
    (hfinished : l.finished = false)
    (hplace : Spare l.mark.line l.place) :
    l.front = some
      (facing body ⟨l.mark.index + 1 + n, l.mark.line + 1, n⟩ true l.indents l.tokens) := by
  have hskip : l.skipSpace (l.rest.length + 1) =
      { l with
        rest := body
        mark := ⟨l.mark.index + 1 + n, l.mark.line + 1, n⟩
        keyAllowed := true } := by
    have hlength : l.rest.length = (spaces n ++ body).length + 1 := by rw [hrest, List.length_cons]
    have hmark : l.mark.over (consumed l.rest (spaces n ++ body)) =
        ⟨l.mark.index + 1, l.mark.line + 1, 0⟩ := by
      rw [hrest, show '\n' :: (spaces n ++ body) = ['\n'] ++ (spaces n ++ body) from rfl,
        consumed_append]
      rfl
    have hmark' : Mark.over ⟨l.mark.index + 1, l.mark.line + 1, 0⟩ (spaces n) =
        ⟨l.mark.index + 1 + n, l.mark.line + 1, n⟩ := by
      simp only [Mark.over_spaces, Mark.right, Nat.zero_add]
    rw [skipSpace_feed hrest (by rw [inFlow, hflow]; rfl), hlength,
      skipSpace_spaces (show _ = spaces n ++ body from rfl) hbody]
    simp only [goTo, hmark, consumed_append, hmark']
  -- the place is on the line that has ended, so it is stale by now and nothing needs it
  have hplace' :
      ∀ l' : Lexer, l'.mark.line = l.mark.line + 1 → l'.dropStale l.place = some none := by
    intro l' hline
    exact dropStale_of_line_lt hplace (by omega)
  rw [front, hskip]
  show (Option.bind (Option.bind (Lexer.dropStale _ l.place) _) _) = _
  rw [hplace' _ rfl]
  simp only [hflow, hfinished]
  rfl

/-! ## Indicators -/

/-- Whether a block collection begins at a column: one that is further right than the innermost one
does, and one at its very column goes on. -/
inductive Enters (column : Nat) (start : Token) :
    List Nat → List Token → List Nat → List Token → Prop where
  | opening {indents : List Nat} {tokens : List Token} (left : ∀ i ∈ indents.head?, i < column) :
    Enters column start indents tokens (column :: indents) (start :: tokens)
  | inside {outer : List Nat} {tokens : List Token} :
    Enters column start (column :: outer) tokens (column :: outer) tokens

section

variable {m : Mark} {allowed : Bool} {indents indents' : List Nat} {tokens tokens' : List Token}

/-- Whether the collection begins or goes on, it is the innermost one afterwards. -/
theorem Enters.head {column : Nat} {start : Token}
    (h : Enters column start indents tokens indents' tokens') : indents'.head? = some column := by
  cases h <;> rfl

/-- Right of the innermost collection there is room for content. -/
theorem leastColumn_le {column : Nat} {l : Lexer} (h : ∀ i ∈ l.indents.head?, i < column) :
    l.leastColumn ≤ column := by
  unfold leastColumn
  split
  · exact Nat.zero_le _
  · rename_i i rest heq
    exact h i (by rw [heq]; rfl)

/-- Outside flow collections the column alone says whether a collection begins. -/
theorem isDeeper_inBlock {body : List Char} (column : Nat) :
    (inBlock body m allowed indents tokens).isDeeper column =
      decide ((inBlock body m allowed indents tokens).leastColumn ≤ column) := rfl

/-- A collection begins where it has to, and only there. This is the meaning of `Enters`. -/
theorem roll_inBlock {start : Token} {body : List Char}
    (h : Enters m.column start indents tokens indents' tokens') :
    (inBlock body m allowed indents tokens).roll start =
      inBlock body m allowed indents' tokens' := by
  unfold roll
  rw [isDeeper_inBlock]
  -- right of the innermost collection a new one begins, and at its column it goes on
  cases h with
  | opening hleft =>
    have hdeeper : (inBlock body m allowed indents tokens).leastColumn ≤ m.column :=
      leastColumn_le hleft
    exact if_pos (decide_eq_true hdeeper)
  | @inside outer tokens =>
    have hlevel : ¬(inBlock body m allowed (m.column :: outer) tokens).leastColumn ≤ m.column :=
      Nat.not_succ_le_self m.column
    exact if_neg (Bool.eq_false_iff.mp (decide_eq_false hlevel))

/-- An indicator and a space, from what the indicator is read as. -/
theorem moves_indicator {c : Char} {t : Token} {body : List Char} (hbody : Solid body)
    (hread : (inBlock (c :: ' ' :: body) m true indents tokens).readToken =
      some (inBlock (' ' :: body) (m.right 1) true indents' (t :: tokens')))
    (hindents : indents'.head? = some m.column) :
    Moves (inBlock (c :: ' ' :: body) m true indents tokens)
      (inBlock body (m.right 2) true indents' (t :: tokens')) := by
  refine ⟨inBlock (' ' :: body) (m.right 1) true indents' (t :: tokens'), ?_, rfl, ?_, ?_⟩
  · rw [take, hread]
    rfl
  -- the space behind the indicator is passed over, and what follows is inside the collection
  · rw [show ' ' :: body = spaces 1 ++ body from rfl, front_spaces hbody, Mark.right_right,
      facing_of_le]
    intro i hi
    rw [hindents] at hi
    obtain rfl := Option.some.inj hi
    exact Nat.le_add_right ..
  · show body.length < (c :: ' ' :: body).length
    simp only [List.length_cons]
    omega

/-- An element of a block sequence. -/
theorem moves_entry {body : List Char} (hbody : Solid body)
    (h : Enters m.column .blockSequenceStart indents tokens indents' tokens') :
    Moves (inBlock ('-' :: ' ' :: body) m true indents tokens)
      (inBlock body (m.right 2) true indents' (.blockEntry :: tokens')) := by
  refine moves_indicator hbody ?_ h.head
  have hread : (inBlock ('-' :: ' ' :: body) m true indents tokens).readToken =
      (inBlock ('-' :: ' ' :: body) m true indents tokens).readBlockEntry := by
    simp [readToken, inBlock, isDocumentMark, endsWord, isBlank]
  rw [hread, readBlockEntry, if_neg (by simp [inBlock]), roll_inBlock h]
  simp [forgetPlace, inBlock, skip, goTo, push, consumed, Mark.over_cons, isBreak, Mark.right]

/-- A question mark in front of a key. -/
theorem moves_question {body : List Char} (hbody : Solid body)
    (h : Enters m.column .blockMappingStart indents tokens indents' tokens') :
    Moves (inBlock ('?' :: ' ' :: body) m true indents tokens)
      (inBlock body (m.right 2) true indents' (.key :: tokens')) := by
  refine moves_indicator hbody ?_ h.head
  have hread : (inBlock ('?' :: ' ' :: body) m true indents tokens).readToken =
      (inBlock ('?' :: ' ' :: body) m true indents tokens).readKey := by
    simp [readToken, inBlock, isDocumentMark, endsWord, isBlank]
  rw [hread, readKey, if_neg (by simp [inBlock]), roll_inBlock h]
  simp [forgetPlace, inBlock, skip, goTo, push, consumed, Mark.over_cons, isBreak, Mark.right,
    inFlow]

/-- A colon behind a key that has lines of its own. -/
theorem moves_colon {body : List Char} (hbody : Solid body) (outer : List Nat) :
    Moves (inBlock (':' :: ' ' :: body) m true (m.column :: outer) tokens)
      (inBlock body (m.right 2) true (m.column :: outer) (.value :: tokens)) := by
  refine moves_indicator hbody ?_ rfl
  have hread : (inBlock (':' :: ' ' :: body) m true (m.column :: outer) tokens).readToken =
      (inBlock (':' :: ' ' :: body) m true (m.column :: outer) tokens).readValue := by
    simp [readToken, inBlock, isDocumentMark, endsWord, isBlank]
  -- no key place is kept: the key in front stood behind a question mark
  have hplace : (inBlock (':' :: ' ' :: body) m true (m.column :: outer) tokens).place = none := rfl
  rw [hread, readValue, hplace]
  simp only
  rw [if_neg (by simp [inBlock]), roll_inBlock .inside]
  simp [inBlock, skip, goTo, push, consumed, Mark.over_cons, isBreak, Mark.right, inFlow]

/-! ## Content at the end of a line -/

/-- A state outside flow collections with a place where a key may have begun. -/
def withPlace (l : Lexer) (place : Option KeyPlace) : Lexer := { l with place }

/-- The place saved in front of content is not required unless a block mapping stands at this very
column. -/
theorem savePlace_inBlock (body : List Char) (allowed : Bool) (tokens : List Token)
    (h : indents.head? ≠ some m.column) :
    ∃ place, (inBlock body m allowed indents tokens).savePlace =
        some ((inBlock body m allowed indents tokens).withPlace place) ∧ Spare m.line place := by
  cases allowed with
  | false => exact ⟨none, rfl, nofun⟩
  | true =>
    refine ⟨some ⟨tokens.length, false, m⟩, ?_, ?_⟩
    -- a key would have to begin here only at the column of the innermost collection
    · have hrequired : (!(inBlock body m true indents tokens).inFlow &&
          indents.head? == some m.column) = false := by
        rw [Bool.and_eq_false_iff]
        exact .inr (beq_eq_false_iff_ne.mpr h)
      unfold savePlace
      rw [if_pos (show (inBlock body m true indents tokens).keyAllowed = true from rfl)]
      show (some _).map _ = _
      rw [Option.map_some]
      show some (withPlace _ (some ⟨_, (!(inBlock body m true indents tokens).inFlow &&
          indents.head? == some m.column), _⟩)) = _
      rw [hrequired]
      rfl
    · rintro p hp
      obtain rfl := Option.some.inj hp
      exact ⟨rfl, Nat.le_refl _⟩

/-- A place to spare is kept or dropped. -/
theorem dropStalePlaces_withPlace {l : Lexer} {line : Nat} {place : Option KeyPlace}
    (houter : l.outerPlaces = []) (h : Spare line place) :
    ∃ place', (l.withPlace place).dropStalePlaces = some (l.withPlace place') ∧
      Spare line place' := by
  obtain ⟨place', hdrop, hspare⟩ := dropStale_of_spare (l.withPlace place) h
  refine ⟨place', ?_, hspare⟩
  show (Option.bind (dropStale _ place) _) = _
  rw [hdrop]
  show (Option.bind (l.outerPlaces.mapM _) _) = _
  -- outside of brackets there is one place to look at
  rw [houter]
  simp only [List.mapM_nil, withPlace]
  rw [← houter]
  rfl

/-- Content up to the end of its line, from what it is read as. The token is taken, and the lexer
faces what begins the next line. -/
theorem moves_content {s body : List Char} {k : Nat} {t : Token}
    (read : Lexer → Option (Token × List Char)) (hs : s ≠ []) (hbody : Solid body)
    (hindents : indents.head? ≠ some m.column)
    (htoken : (inBlock (s ++ '\n' :: (spaces k ++ body)) m allowed indents tokens).readToken =
      readContent (inBlock (s ++ '\n' :: (spaces k ++ body)) m allowed indents tokens) read)
    (hread : ∀ place,
      read ((inBlock (s ++ '\n' :: (spaces k ++ body)) m allowed indents tokens).withPlace place) =
        some (t, '\n' :: (spaces k ++ body))) :
    ∃ m' : Mark, m'.column = k ∧
      Moves (inBlock (s ++ '\n' :: (spaces k ++ body)) m allowed indents tokens)
        (facing body m' true indents (t :: tokens)) := by
  obtain ⟨place, hsave, hplace⟩ :=
    savePlace_inBlock (s ++ '\n' :: (spaces k ++ body)) allowed tokens hindents
  generalize hfeed : '\n' :: (spaces k ++ body) = feed at *
  have hcontent : readContent (inBlock (s ++ feed) m allowed indents tokens) read =
      some ((inBlock feed (m.over s) false indents (t :: tokens)).withPlace place) := by
    unfold readContent
    rw [hsave]
    simp only [Option.bind_eq_bind, Option.bind_some, hread]
    simp [withPlace, inBlock, goTo, push, consumed_append]
  -- the place may be stale by now, which is no fault, as no key has to begin there
  obtain ⟨place', hdrop, hspare⟩ := dropStalePlaces_withPlace
    (l := inBlock feed (m.over s) false indents (t :: tokens)) rfl hplace
  refine ⟨⟨(m.over s).index + 1 + k, (m.over s).line + 1, k⟩, rfl,
    withPlace (inBlock feed (m.over s) false indents (t :: tokens)) place', ?_, rfl, ?_, ?_⟩
  · rw [take, htoken, hcontent, Option.bind_some, hdrop]
  · exact front_feed hbody k hfeed.symm rfl rfl fun p hp =>
      ⟨(hspare p hp).1, Nat.le_trans (hspare p hp).2 (Mark.line_le_over m s)⟩
  · show body.length < (s ++ feed).length
    have hpos : 0 < s.length := List.length_pos_iff.mpr hs
    rw [← hfeed]
    simp only [List.length_append, List.length_cons]
    omega

/-- Content that is read beyond the end of its line. -/
theorem moves_over {s body : List Char} {m' : Mark} {t : Token} (hs : s ≠ []) (hbody : Solid body)
    (htake : (inBlock (s ++ body) m allowed indents tokens).take =
      some (inBlock body m' true indents (t :: tokens))) :
    Moves (inBlock (s ++ body) m allowed indents tokens)
      (facing body m' true indents (t :: tokens)) := by
  refine ⟨_, htake, rfl, front_spaces hbody 0 m' true indents (t :: tokens), ?_⟩
  show body.length < (s ++ body).length
  have hpos : 0 < s.length := List.length_pos_iff.mpr hs
  rw [List.length_append]
  omega

/-! ## Empty flow collections -/

/-- A state inside one flow collection, which may be a key as a whole. -/
def inCollection (body : List Char) (m : Mark) (indents : List Nat) (tokens : List Token)
    (place : Option KeyPlace) : Lexer where
  rest := body
  mark := m
  indents := indents
  place := none
  outerPlaces := [place]
  keyAllowed := true
  tokens := tokens
  finished := false

/-- Inside a flow collection the place of the collection itself may be dropped,
which is no fault. -/
theorem dropStalePlaces_inCollection (body : List Char) (m : Mark) (indents : List Nat)
    (tokens : List Token) {line : Nat} {place : Option KeyPlace} (h : Spare line place) :
    ∃ place', (inCollection body m indents tokens place).dropStalePlaces =
        some (inCollection body m indents tokens place') ∧ Spare line place' := by
  obtain ⟨place', hdrop, hspare⟩ :=
    dropStale_of_spare (inCollection body m indents tokens place) h
  refine ⟨place', ?_, hspare⟩
  show (Option.bind (List.mapM _ [place]) _) = _
  rw [List.mapM_cons, hdrop]
  rfl

/-- The indicators of a flow collection without elements. -/
inductive Empty : Char → Char → Token → Token → Prop where
  | seq : Empty '[' ']' .flowSequenceStart .flowSequenceEnd
  | map : Empty '\x7b' '\x7d' .flowMappingStart .flowMappingEnd

/-- The opening indicator. -/
theorem readToken_first {first last : Char} {t t' : Token} (h : Empty first last t t')
    {s : List Char} {place : Option KeyPlace}
    (hsave : (inBlock (first :: s) m allowed indents tokens).savePlace =
      some ((inBlock (first :: s) m allowed indents tokens).withPlace place)) :
    (inBlock (first :: s) m allowed indents tokens).readToken =
      some (inCollection s (m.right 1) indents (t :: tokens) place) := by
  have hopen : (inBlock (first :: s) m allowed indents tokens).readToken =
      (inBlock (first :: s) m allowed indents tokens).openFlow t := by
    cases h <;> simp [readToken, inBlock, isDocumentMark]
  have hbreak : isBreak first = false := by cases h <;> decide
  rw [hopen, openFlow, hsave, Option.map_some]
  simp [withPlace, inBlock, inCollection, skip, goTo, push, consumed, Mark.over_cons hbreak,
    Mark.right]

/-- The closing indicator. -/
theorem readToken_last {first last : Char} {t t' : Token} (h : Empty first last t t')
    (s : List Char) (place : Option KeyPlace) :
    (inCollection (last :: s) m indents tokens place).readToken =
      some ((inBlock s (m.right 1) false indents (t' :: tokens)).withPlace place) := by
  have hclose : (inCollection (last :: s) m indents tokens place).readToken =
      (inCollection (last :: s) m indents tokens place).closeFlow t' := by
    cases h <;> simp [readToken, inCollection, isDocumentMark]
  have hbreak : isBreak last = false := by cases h <;> decide
  rw [hclose]
  simp [closeFlow, forgetPlace, inCollection, inBlock, withPlace, skip, goTo, push, consumed,
    Mark.over_cons hbreak, Mark.right]

/-- Nothing stands between the indicators. -/
theorem front_inCollection {s : List Char} (hs : Solid s) (m : Mark) (indents : List Nat)
    (tokens : List Token) {line : Nat} {place : Option KeyPlace} (h : Spare line place) :
    ∃ place', (inCollection s m indents tokens place).front =
        some (inCollection s m indents tokens place') ∧ Spare line place' := by
  obtain ⟨place', hdrop, hspare⟩ := dropStalePlaces_inCollection s m indents tokens h
  refine ⟨place', ?_, hspare⟩
  have hskip : (inCollection s m indents tokens place).skipSpace (s.length + 1) =
      inCollection s m indents tokens place := by
    rw [skipSpace_spaces (show _ = spaces 0 ++ s from rfl) hs]
    simp [goTo, inCollection, consumed]
  rw [front]
  show (Option.bind (dropStalePlaces (skipSpace (s.length + 1) _)) _) = _
  rw [hskip, hdrop]
  rfl

/-- An empty flow collection up to the end of its line. -/
theorem reads_empty {first last : Char} {t t' : Token} (h : Empty first last t t')
    {body : List Char} (hbody : Solid body) (k : Nat) (hindents : indents.head? ≠ some m.column) :
    ∃ m' : Mark, m'.column = k ∧
      Reads (inBlock (first :: last :: '\n' :: (spaces k ++ body)) m allowed indents tokens)
        (facing body m' true indents (t' :: t :: tokens)) := by
  generalize hfeed : '\n' :: (spaces k ++ body) = feed
  have hlength : body.length < feed.length := by
    rw [← hfeed, List.length_cons, List.length_append]
    omega
  have hsolid : Solid (last :: feed) := by
    rw [solid_cons]
    cases h <;> decide
  -- the collection as a whole might be a key, so its place is kept until the line ends
  obtain ⟨place, hsave, hspare⟩ := savePlace_inBlock (first :: last :: feed) allowed tokens hindents
  obtain ⟨place₁, hdrop₁, hspare⟩ :=
    dropStalePlaces_inCollection (last :: feed) (m.right 1) indents (t :: tokens) hspare
  obtain ⟨place₂, hfront₂, hspare⟩ :=
    front_inCollection hsolid (m.right 1) indents (t :: tokens) hspare
  obtain ⟨place₃, hdrop₃, hspare⟩ := dropStalePlaces_withPlace
    (l := inBlock feed ((m.right 1).right 1) false indents (t' :: t :: tokens)) rfl hspare
  have hfirst : Moves (inBlock (first :: last :: feed) m allowed indents tokens)
      (inCollection (last :: feed) (m.right 1) indents (t :: tokens) place₂) := by
    refine ⟨_, ?_, rfl, hfront₂, Nat.lt_succ_self _⟩
    rw [take, readToken_first h hsave, Option.bind_some, hdrop₁]
  refine ⟨⟨m.index + 1 + 1 + 1 + k, m.line + 1, k⟩, rfl, .head hfirst (.single ?_)⟩
  refine ⟨withPlace (inBlock feed ((m.right 1).right 1) false indents (t' :: t :: tokens)) place₃,
    ?_, rfl, front_feed hbody k hfeed.symm rfl rfl hspare, ?_⟩
  · rw [take, readToken_last h, Option.bind_some, hdrop₃]
  · show body.length < (last :: feed).length
    rw [List.length_cons]
    omega

/-! ## Keys in front of a colon -/

/-- The place of a key that stands at a mark, kept while the key is read. -/
def keyPlace (m : Mark) (indents : List Nat) (tokens : List Token) : KeyPlace :=
  ⟨tokens.length, indents.head? == some m.column, m⟩

/-- In front of content a place is saved where a key may begin. -/
theorem savePlace_key (body : List Char) :
    (inBlock body m true indents tokens).savePlace =
      some ((inBlock body m true indents tokens).withPlace (some (keyPlace m indents tokens))) :=
  rfl

/-- The place of a key is kept on its line for 1024 characters. -/
theorem dropStalePlaces_key {body : List Char} {n : Nat} (hn : n ≤ 1024) (tokens' : List Token) :
    ((inBlock body (m.right n) allowed indents tokens').withPlace
        (some (keyPlace m indents tokens))).dropStalePlaces =
      some ((inBlock body (m.right n) allowed indents tokens').withPlace
        (some (keyPlace m indents tokens))) := by
  -- the key ends on its line and within the limit
  have hfresh : ((inBlock body (m.right n) allowed indents tokens').withPlace
      (some (keyPlace m indents tokens))).isStale (keyPlace m indents tokens) = false := by
    rw [isStale, Bool.or_eq_false_iff, decide_eq_false_iff_not, decide_eq_false_iff_not]
    show ¬m.line < m.line ∧ ¬m.index + 1024 < m.index + n
    omega
  unfold dropStalePlaces
  show (Option.bind (dropStale _ (some _)) _) = _
  rw [dropStale, hfresh]
  rfl

/-- A key in front of its colon. The place in front of it is kept, since only the colon shows that
it is a key. -/
theorem moves_key {s v : List Char} {t : Token} (hs : s ≠ []) (hlength : s.length ≤ 1024)
    (hindents : ∀ i ∈ indents.head?, i ≤ m.column)
    (hread : (inBlock (s ++ ':' :: v) m true indents tokens).readToken =
      some ((inBlock (':' :: v) (m.right s.length) false indents (t :: tokens)).withPlace
        (some (keyPlace m indents tokens)))) :
    Moves (inBlock (s ++ ':' :: v) m true indents tokens)
      ((inBlock (':' :: v) (m.right s.length) false indents (t :: tokens)).withPlace
        (some (keyPlace m indents tokens))) := by
  refine ⟨_, by rw [take, hread, Option.bind_some, dropStalePlaces_key hlength], rfl, ?_, ?_⟩
  -- nothing lies between the key and its colon, and no collection ends there
  · have hsolid : Solid (':' :: v) := solid_cons.mpr (by decide)
    generalize hl : (inBlock (':' :: v) (m.right s.length) false indents (t :: tokens)).withPlace
      (some (keyPlace m indents tokens)) = l
    have hrest : l.rest = ':' :: v := by rw [← hl]; rfl
    have hskip : l.skipSpace (l.rest.length + 1) = l := by
      rw [skipSpace_spaces (show _ = spaces 0 ++ (':' :: v) from hrest) hsolid, ← hrest]
      simp [goTo, consumed]
    have hdrop : l.dropStalePlaces = some l := by rw [← hl, dropStalePlaces_key hlength]
    have hclose : closeBlocks l.mark.column l.indents l.tokens = (l.indents, l.tokens) := by
      rw [← hl]
      exact closeBlocks_of_le (fun i hi => Nat.le_trans (hindents i hi) (Nat.le_add_right ..)) _
    rw [front, hskip, hdrop, Option.bind_eq_bind, Option.bind_some, unroll, hclose]
    simp
  · show (':' :: v).length < (s ++ ':' :: v).length
    have hpos : 0 < s.length := List.length_pos_iff.mpr hs
    rw [List.length_append]
    omega

/-- A block mapping begins in front of the tokens of its first key. -/
theorem rollAt_inBlock {body : List Char} {t : Token} {m' : Mark}
    (h : Enters m.column .blockMappingStart indents tokens indents' tokens') :
    (inBlock body m' allowed indents (t :: .key :: tokens)).rollAt (keyPlace m indents tokens) =
      inBlock body m' allowed indents' (t :: .key :: tokens') := by
  unfold rollAt
  cases h with
  | opening hleft =>
    have hdeeper : (inBlock body m' allowed indents (t :: .key :: tokens)).leastColumn ≤ m.column :=
      leastColumn_le hleft
    -- the mapping begins in front of the key, behind all tokens that were there before
    have hlater : tokens.length + 1 + 1 - tokens.length = 2 := by omega
    refine (if_pos (decide_eq_true hdeeper)).trans ?_
    simp [pushAt, keyPlace, inBlock, hlater]
  | @inside outer tokens =>
    -- the mapping is open at this very column, so none begins
    have hlevel : ¬(inBlock body m' allowed (m.column :: outer) (t :: .key :: tokens)).leastColumn ≤
        m.column := Nat.not_succ_le_self m.column
    exact if_neg (Bool.eq_false_iff.mp (decide_eq_false hlevel))

/-- The colon behind a key puts tokens in front of the key. The place that was kept says where, and
a mapping may begin there as well. -/
theorem take_keyColon {v : List Char} {t : Token} {n : Nat} (hn : 0 < n) (hv : endsWord v = true)
    (h : Enters m.column .blockMappingStart indents tokens indents' tokens') :
    ((inBlock (':' :: v) (m.right n) false indents (t :: tokens)).withPlace
        (some (keyPlace m indents tokens))).take =
      some (inBlock v (m.right (n + 1)) false indents' (.value :: t :: .key :: tokens')) := by
  generalize hl : (inBlock (':' :: v) (m.right n) false indents (t :: tokens)).withPlace
      (some (keyPlace m indents tokens)) = l
  have hne : n ≠ 0 := by omega
  have hread : l.readToken = l.readValue := by
    rw [← hl]
    simp [readToken, withPlace, inBlock, hne, hv]
  have hplace : l.place = some (keyPlace m indents tokens) := by rw [← hl]; rfl
  -- the key is put in front of its content, then the mapping in front of the key
  have hpush : { l with place := none, keyAllowed := false }.pushAt tokens.length .key =
      inBlock (':' :: v) (m.right n) false indents (t :: .key :: tokens) := by
    rw [← hl]
    simp [pushAt, withPlace, inBlock]
  rw [take, hread, readValue, hplace]
  show (Option.bind (some ((({ l with place := none, keyAllowed := false }.pushAt
    tokens.length .key).rollAt _ |>.skip 1).push .value)) _) = _
  rw [hpush, rollAt_inBlock h]
  simp [skip, goTo, push, inBlock, consumed, Mark.over_cons, isBreak, Mark.right, Nat.add_assoc]
  rfl

end

end Lexer

end ModelGraph.Yaml
