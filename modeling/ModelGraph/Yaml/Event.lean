import ModelGraph.Yaml.Token

/-!
# Events of YAML

The grammar of YAML over tokens. It turns the tokens of a document into events: scalars, aliases,
and the beginnings and ends of collections, with the anchors and tags that stand before them. When
the tokens break the grammar, the events in front of that place are kept.

- `Event.ofTokens`: the events of the one document of a text, and whether it is free of faults.
-/

namespace ModelGraph.Yaml

/-! ## Tags -/

/-- What a tag means for reading. `custom` is any tag that begins with an exclamation mark, or
`garbled` if it is no text; `other` is any other tag. -/
inductive Tag where
  | none
  | bool
  | int
  | float
  | null
  | custom
  | garbled
  | other
  deriving DecidableEq, Repr

/-- The address in front of the tags of the standard types. -/
def standardAddress : List UInt8 := bytesOf "tag:yaml.org,2002:".toList

/-- What a tag with all its bytes means. -/
def Tag.ofBytes (bytes : List UInt8) : Tag :=
  let standard (name : String) : List UInt8 := standardAddress ++ bytesOf name.toList
  if bytes = standard "bool" then bool
  else if bytes = standard "int" then int
  else if bytes = standard "float" then float
  else if bytes = standard "null" then null
  else if bytes.head? = some 0x21 then
    if (String.fromUTF8? ⟨bytes.toArray⟩).isSome then custom else garbled
  else other

/-- The handles of a document and what they stand for. -/
abbrev Handles := List (List Char × List UInt8)

/-- The handles of every document, unless its directives say otherwise. -/
def standardHandles : Handles :=
  [(['!'], bytesOf ['!']), (['!', '!'], standardAddress)]

/-- The meaning of a tag as it is written. A handle must be known. -/
def WrittenTag.resolve? (handles : Handles) (t : WrittenTag) : Option Tag :=
  if t.handle.isEmpty then some (Tag.ofBytes t.suffix)
  else (handles.lookup t.handle).map fun address => Tag.ofBytes (address ++ t.suffix)

/-! ## Events -/

/-- What stands in front of a node. -/
structure Properties where
  anchor : Option String
  tag : Tag
  deriving DecidableEq, Repr

/-- One step of a document. -/
inductive Event where
  | scalar (properties : Properties) (style : Style) (text : String)
  | openSeq (properties : Properties)
  | closeSeq
  | openMap (properties : Properties)
  | closeMap
  | alias (name : String)
  | absent
  deriving DecidableEq, Repr

/-! ## Parsing -/

/-- The state of the parsing: the tokens that are left, the handles of the document, and the events
so far, newest first. -/
structure Parse where
  tokens : List Token
  handles : Handles
  events : List Event

/-- A part of the grammar. When it fails, the events it has made so far stay, because the state is
kept below the failure. -/
abbrev Parser := ExceptT Unit (StateM Parse)

/-- The next token. -/
def peek : Parser Token := do
  match (← get).tokens with
  | t :: _ => pure t
  | [] => throw ()

/-- Passes over the next token. -/
def advance : Parser Unit := modify fun p => { p with tokens := p.tokens.tail }

/-- One more event. -/
def emit (e : Event) : Parser Unit := modify fun p => { p with events := e :: p.events }

/-- A node without any properties. -/
def noProperties : Properties := ⟨none, .none⟩

/-- The node that stands where the text has none. -/
def emitEmpty : Parser Unit := emit (.scalar noProperties .plain "")

/-- The next token, if it is an anchor. -/
def readAnchor : Parser (Option String) := do
  match ← peek with
  | .anchor name => advance; pure (some name)
  | _ => pure none

/-- The next token, if it is a tag. -/
def readTag : Parser (Option WrittenTag) := do
  match ← peek with
  | .tag value => advance; pure (some value)
  | _ => pure none

/-- An anchor and a tag in either order, each at most once. Answers the tag unresolved. -/
def readProperties : Parser (Option String × Option WrittenTag) := do
  match ← readAnchor with
  | some anchor => pure (some anchor, ← readTag)
  | none =>
    match ← readTag with
    | some tag => pure (← readAnchor, some tag)
    | none => pure (none, none)

/-- The meaning of the tag of a node. -/
def resolveTag : Option WrittenTag → Parser Tag
  | none => pure .none
  | some written => do
    match written.resolve? (← get).handles with
    | some tag => pure tag
    | none => throw ()

/-- The token that separates or ends what is read. -/
def isOneOf (t : Token) (ts : List Token) : Bool := ts.contains t

mutual

/-- A node. In a block it may be a block collection, and as a value or key of a block mapping also
a sequence that is not indented. -/
def node : Nat → (block indentless : Bool) → Parser Unit
  | 0, _, _ => throw ()
  | fuel + 1, block, indentless => do
    match ← peek with
    | .alias name => advance; emit (.alias name)
    | _ => do
      let (anchor, written) ← readProperties
      let t ← peek
      let properties : Properties := ⟨anchor, ← resolveTag written⟩
      match t, block, indentless with
      -- this sequence has no token for its beginning, so there is none to pass over
      | .blockEntry, _, true => emit (.openSeq properties); indentlessEntries fuel
      | .scalar style text, _, _ => advance; emit (.scalar properties style text)
      | .flowSequenceStart, _, _ => emit (.openSeq properties); advance; flowEntries fuel true
      | .flowMappingStart, _, _ => emit (.openMap properties); advance; flowPairs fuel true
      | .blockSequenceStart, true, _ => emit (.openSeq properties); advance; blockEntries fuel
      | .blockMappingStart, true, _ => emit (.openMap properties); advance; blockPairs fuel
      | _, _, _ =>
        -- an anchor or a tag may stand for an empty scalar, nothing at all may not
        if anchor.isSome || written.isSome then emit (.scalar properties .plain "") else throw ()

/-- The elements of an indented block sequence. -/
def blockEntries : Nat → Parser Unit
  | 0 => throw ()
  | fuel + 1 => do
    match ← peek with
    | .blockEntry => do
      advance
      -- a hyphen with nothing behind it stands for an element without text
      if isOneOf (← peek) [.blockEntry, .blockEnd] then emitEmpty else node fuel true false
      blockEntries fuel
    | .blockEnd => emit .closeSeq; advance
    | _ => throw ()

/-- The elements of a block sequence that is not indented. -/
def indentlessEntries : Nat → Parser Unit
  | 0 => throw ()
  | fuel + 1 => do
    match ← peek with
    | .blockEntry => do
      advance
      if isOneOf (← peek) [.blockEntry, .key, .value, .blockEnd] then emitEmpty
      else node fuel true false
      indentlessEntries fuel
    -- the sequence has no token for its end either: whatever is no element ends it
    | _ => emit .closeSeq

/-- The entries of a block mapping. -/
def blockPairs : Nat → Parser Unit
  | 0 => throw ()
  | fuel + 1 => do
    match ← peek with
    | .key => do
      advance
      -- a key may be missing, and so may a value
      if isOneOf (← peek) [.key, .value, .blockEnd] then emitEmpty else node fuel true true
      match ← peek with
      | .value => do
        advance
        if isOneOf (← peek) [.key, .value, .blockEnd] then emitEmpty else node fuel true true
      | _ => emitEmpty
      blockPairs fuel
    | .blockEnd => emit .closeMap; advance
    | _ => throw ()

/-- The elements of a flow sequence. An element that begins like an entry of a mapping is a mapping
with that entry. -/
def flowEntries : Nat → (first : Bool) → Parser Unit
  | 0, _ => throw ()
  | fuel + 1, first => do
    match ← peek with
    | .flowSequenceEnd => emit .closeSeq; advance
    | t => do
      -- elements are separated by commas, and one may stand behind the last element
      if !first then
        if t = .flowEntry then advance else throw ()
      match ← peek with
      | .key => do
        emit (.openMap noProperties)
        advance
        -- the token is taken along: a colon with nothing before it is lost, and its value is out
        -- of place
        if isOneOf (← peek) [.value, .flowEntry, .flowSequenceEnd] then advance; emitEmpty
        else node fuel false false
        match ← peek with
        | .value => do
          advance
          if isOneOf (← peek) [.flowEntry, .flowSequenceEnd] then emitEmpty
          else node fuel false false
        | _ => emitEmpty
        -- the mapping ends only if there is another token behind it
        let _ ← peek
        emit .closeMap
        flowEntries fuel false
      | .flowSequenceEnd => emit .closeSeq; advance
      | _ => do
        node fuel false false
        flowEntries fuel false

/-- The entries of a flow mapping. An element without a colon is a key without a value. -/
def flowPairs : Nat → (first : Bool) → Parser Unit
  | 0, _ => throw ()
  | fuel + 1, first => do
    match ← peek with
    | .flowMappingEnd => emit .closeMap; advance
    | t => do
      -- entries are separated by commas, and one may stand behind the last entry
      if !first then
        if t = .flowEntry then advance else throw ()
      match ← peek with
      | .key => do
        advance
        if isOneOf (← peek) [.value, .flowEntry, .flowMappingEnd] then emitEmpty
        else node fuel false false
        match ← peek with
        | .value => do
          advance
          if isOneOf (← peek) [.flowEntry, .flowMappingEnd] then emitEmpty
          else node fuel false false
        | _ => emitEmpty
        flowPairs fuel false
      | .flowMappingEnd => emit .closeMap; advance
      | _ => do
        node fuel false false
        -- the value is left out, but the text must go on behind the key
        let _ ← peek
        emitEmpty
        flowPairs fuel false

end

/-! ## Documents -/

/-- The directives in front of a document: at most one version, which must be 1.1 or 1.2, and every
handle at most once. -/
def readDirectives : Nat → (versionSeen : Bool) → Handles → Parser Handles
  | 0, _, _ => throw ()
  | fuel + 1, versionSeen, handles => do
    match ← peek with
    | .directive (.version major minor) => do
      -- the version may be given once
      if versionSeen || major != 1 || (minor != 1 && minor != 2) then throw ()
      advance
      readDirectives fuel true handles
    | .directive (.handle name address) => do
      if (handles.lookup name).isSome then throw ()
      advance
      readDirectives fuel versionSeen (handles ++ [(name, address)])
    | _ => pure handles

/-- A token that shows that a document has no content. -/
def endsContent : Token → Bool
  | .directive _ | .documentStart | .documentEnd | .streamEnd => true
  | _ => false

/-- The document of a text, up to its last node. -/
def document (fuel : Nat) : Parser Unit := do
  match ← peek with
  | .streamEnd => emit .absent
  | .directive _ | .documentStart => do
    let handles ← readDirectives fuel false []
    -- directives belong to a document, whose mark must follow
    match ← peek with
    | .documentStart => do
      modify fun p => { p with handles := handles ++ standardHandles }
      advance
      if endsContent (← peek) then emitEmpty else node fuel true false
    | _ => throw ()
  -- without a mark the document begins with its first node
  | _ => node fuel true false

/-- Nothing but marks of its end may follow the document. -/
def endOfText : List Token → Bool
  | .documentEnd :: rest => endOfText rest
  | [.streamEnd] => true
  | _ => false

/-- The events of the document of a text, from its tokens, and whether it is free of faults. Every
call of a part of the grammar takes a token or follows one that does, so a few times their number
is fuel enough. -/
def Event.ofTokens (tokens : List Token) : List Event × Bool :=
  let (result, p) := document (4 * tokens.length + 16) |>.run |>.run ⟨tokens, standardHandles, []⟩
  (p.events.reverse, result.isOk && endOfText p.tokens)

end ModelGraph.Yaml
