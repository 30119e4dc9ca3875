/-!
# Characters and pieces of texts

What all readers of texts share: white space and trimming by it, tables of character properties, and
the pieces of a text between separators.

- `trim`, `isBlank`: a text without the white space at its ends, and whether anything is left of it.
- `inTable`: whether a character has a property, from the code points at which the property changes.
- `pieces`, `joined`: a text cut at every occurrence of a character, and texts put together.
-/

namespace ModelGraph.Text

/-! ## White space -/

/-- The characters with the `White_Space` property of the Unicode standard. Its ranges are few
enough to be written out, so that trimming does not depend on the tables of a version. -/
def isSpace (c : Char) : Bool :=
  let n := c.toNat
  (0x09 ≤ n && n ≤ 0x0D) || n == 0x20 || n == 0x85 || n == 0xA0 || n == 0x1680 ||
    (0x2000 ≤ n && n ≤ 0x200A) || n == 0x2028 || n == 0x2029 || n == 0x202F ||
    n == 0x205F || n == 0x3000

/-- A text without the white space at its two ends. White space between other characters stays. -/
def trim (s : List Char) : List Char :=
  ((s.dropWhile isSpace).reverse.dropWhile isSpace).reverse

/-- Nothing is left of the text after trimming: it is empty or holds white space alone. -/
def isBlank (s : List Char) : Bool :=
  (trim s).isEmpty

/-! ## Character properties -/

/-- A property of characters is written as the code points at which it changes, starting from code
point zero without the property. A code point has it after an odd number of changes. -/
def inTable (changes : List Nat) (codePoint : Nat) : Bool :=
  (changes.takeWhile (· ≤ codePoint)).length % 2 == 1

/-! ## Pieces -/

/-- The pieces of a text between the occurrences of a character. There is always one piece more than
there are occurrences, so the empty text has one empty piece. -/
def pieces (separator : Char) : List Char → List (List Char)
  | [] => [[]]
  | c :: rest =>
    if c = separator then [] :: pieces separator rest
    else
      match pieces separator rest with
      | first :: others => (c :: first) :: others
      -- not reached, as there is always a piece
      | [] => [[c]]

/-- The texts one after the other, with a separator between neighbours. -/
def joined (separator : String) : List String → String
  | [] => ""
  | [last] => last
  | first :: rest => first ++ separator ++ joined separator rest

end ModelGraph.Text
