import ModelGraph.Yaml.Char
import ModelGraph.Text.Digits

/-!
# Tags of YAML

Reading tags and directives. A tag is a list of bytes, because the escapes in it stand for bytes.
Its handle names a text to put in front of it, by the directives of the document.
-/

namespace ModelGraph.Yaml

/-- The bytes of a text. -/
def bytesOf (s : List Char) : List UInt8 :=
  (String.ofList s).toUTF8.toList

/-! ## Handles and addresses -/

/-- A handle: an exclamation mark, word characters and perhaps a second exclamation mark, without
which it is only the beginning of a tag. In a directive the single mark and a closed handle are
allowed. -/
def handle? (inDirective : Bool) : List Char → Option (List Char × List Char)
  | '!' :: s =>
    let word := s.takeWhile isWord
    match s.dropWhile isWord with
    | '!' :: rest => some ('!' :: word ++ ['!'], rest)
    | rest => if inDirective && !word.isEmpty then none else some ('!' :: word, rest)
  | _ => none

/-- A character of a tag. The last three belong to tags in angle brackets and to directives. -/
def isAddressChar (verbatim : Bool) (c : Char) : Bool :=
  isWord c || [';', '/', '?', ':', '@', '&', '=', '+', '$', '.', '%', '!', '~', '*', '\'', '(',
    ')'].contains c || (verbatim && (c == ',' || c == '[' || c == ']'))

/-- The number of bytes of a character by its first byte. -/
def sequenceLength? (octet : Nat) : Option Nat :=
  if octet < 0x80 then some 1
  else if octet / 0x20 = 0x06 then some 2
  else if octet / 0x10 = 0x0E then some 3
  else if octet / 0x08 = 0x1E then some 4
  else none

/-- A byte written as a percent sign and two hexadecimal digits. -/
def escapedByte? : List Char → Option (Nat × List Char)
  | '%' :: a :: b :: rest => (Text.readNatural? 16 [a, b]).map fun n => (n, rest)
  | _ => none

/-- Following bytes of an escaped character. -/
def followingBytes? : Nat → List Char → Option (List UInt8 × List Char)
  | 0, s => some ([], s)
  | count + 1, s =>
    match escapedByte? s with
    | some (octet, rest) =>
      -- the form of every byte of a character but the first
      if octet / 0x40 = 2 then
        (followingBytes? count rest).map fun (bytes, rest) => (UInt8.ofNat octet :: bytes, rest)
      else none
    | none => none

/-- The bytes of an address: its characters, with escaped ones resolved. The length of the text is
fuel enough. -/
def address? (verbatim : Bool) : Nat → List Char → Option (List UInt8 × List Char)
  | 0, s => some ([], s)
  | fuel + 1, s =>
    match s with
    | [] => some ([], [])
    | c :: rest =>
      if c = '%' then do
        let (octet, afterFirst) ← escapedByte? s
        let length ← sequenceLength? octet
        let (following, s) ← followingBytes? (length - 1) afterFirst
        let (others, s) ← address? verbatim fuel s
        some (UInt8.ofNat octet :: following ++ others, s)
      else if isAddressChar verbatim c then do
        let (others, s) ← address? verbatim fuel rest
        some (bytesOf [c] ++ others, s)
      else some ([], s)

/-- An address that must not be empty. -/
def fullAddress? (verbatim : Bool) (s : List Char) : Option (List UInt8 × List Char) :=
  match address? verbatim s.length s with
  | some ([], _) => none
  | found => found

/-! ## Tags -/

/-- A tag as it is written: its handle, empty for none, and what follows it. -/
structure WrittenTag where
  handle : List Char
  suffix : List UInt8
  deriving DecidableEq, Repr

/-- A tag. It ends at white space, or at a comma inside a flow collection. -/
def tag? (inFlow : Bool) (s : List Char) : Option (WrittenTag × List Char) := do
  let (tag, rest) ←
    match s with
    | '!' :: '<' :: s => do
      let (address, s) ← fullAddress? true s
      match s with
      | '>' :: s => some (⟨[], address⟩, s)
      | _ => none
    | _ => do
      let (handle, s) ← handle? false s
      if 2 ≤ handle.length ∧ handle.getLast? = some '!' then
        let (suffix, s) ← fullAddress? false s
        some (⟨handle, suffix⟩, s)
      else
        -- what has been read as a handle is the beginning of the tag
        let (suffix, s) ← address? false s.length s
        let suffix := bytesOf handle.tail ++ suffix
        some (if suffix.isEmpty then ⟨[], bytesOf ['!']⟩ else ⟨['!'], suffix⟩, s)
  let atComma := match rest with
    | ',' :: _ => inFlow
    | _ => false
  if endsWord rest || atComma then some (tag, rest) else none

/-! ## Directives -/

/-- A directive: the version of the syntax, or what a handle stands for. -/
inductive Directive where
  | version (major minor : Nat)
  | handle (name : List Char) (address : List UInt8)
  deriving DecidableEq, Repr

/-- A number of at most nine digits. -/
def versionNumber? (s : List Char) : Option (Nat × List Char) :=
  let digits := s.takeWhile Text.isDigit
  if digits.isEmpty || 9 < digits.length then none
  else some (Text.decimalValue digits, s.dropWhile Text.isDigit)

/-- The value of a version directive. -/
def versionDirective? (s : List Char) : Option (Directive × List Char) := do
  let (major, s) ← versionNumber? (s.dropWhile isBlank)
  match s with
  | '.' :: s =>
    let (minor, s) ← versionNumber? s
    some (.version major minor, s)
  | _ => none

/-- The value of a directive for a handle. -/
def handleDirective? (s : List Char) : Option (Directive × List Char) := do
  let (name, s) ← handle? true (s.dropWhile isBlank)
  match s with
  | c :: _ =>
    if isBlank c then
      let (address, s) ← fullAddress? true (s.dropWhile isBlank)
      if endsWord s then some (.handle name address, s) else none
    else none
  | [] => none

/-- A directive from behind its percent sign, without the end of its line. -/
def directive? (s : List Char) : Option (Directive × List Char) :=
  let name := s.takeWhile isWord
  let rest := s.dropWhile isWord
  if !endsWord rest then none
  else if name = ['Y', 'A', 'M', 'L'] then versionDirective? rest
  else if name = ['T', 'A', 'G'] then handleDirective? rest
  else none

end ModelGraph.Yaml
