import ModelGraph.CommandLine.Option
import ModelGraph.Table

/-!
# Words of a command line

The words of one level of a command line, read one after the other. A value stays open until the
next option or argument begins or the level ends, and only then it is checked. So of two faults the
one that is noticed first need not be the one that is written first.

- `Level.step`: one word read.
- `Level.finish`: the end of a level, where the environment stands in for options not written.
-/

namespace ModelGraph.CommandLine

/-! ## Faults -/

/-- What is wrong with a command line, or that it asks for help. -/
inductive UsageFault where
  | help
  | helpInstead
  | unknownArgument
  | invalidCommand
  | missingCommand
  | missingArgument
  | invalidValue
  | unwantedValue
  | repeated
  deriving DecidableEq, Repr

/-! ## Values -/

/-- Where a value belongs to: an option, or the argument of the command. -/
inductive Slot where
  | option (name : String)
  | argument
  deriving DecidableEq, Repr

/-- Where a value comes from. What is written takes precedence. -/
inductive ValueOrigin where
  | environment
  | written
  deriving DecidableEq, Repr

/-- A value with its origin. -/
structure GivenValue where
  text : String
  origin : ValueOrigin
  deriving DecidableEq, Repr

/-- The values of a level. -/
abbrev Values := Table Slot GivenValue

/-- Variables of the environment. -/
abbrev Environment := String → Option String

/-- An option or argument that has begun, with its value if that is there already. -/
structure OpenValue where
  slot : Slot
  intake : Intake
  value : Option String
  deriving DecidableEq, Repr

/-- How far the words of a level have been read: the values that are complete, the one that is
open, whether the next word is its value, and whether options have been ended by two dashes. -/
structure Reading where
  values : Values := Table.empty
  opened : Option OpenValue := none
  waiting : Bool := false
  optionsEnded : Bool := false

namespace Reading

/-- A value taken over. It may be written only once. -/
def record (r : Reading) (slot : Slot) (intake : Intake) (value : String) :
    Except UsageFault Reading :=
  if (r.values.get? slot).isSome then .error .repeated
  else if intake.accepts value then
    .ok { r with values := r.values.set slot ⟨value, .written⟩ }
  else .error .invalidValue

/-- The open value completed. -/
def settle (r : Reading) : Except UsageFault Reading :=
  match r.opened with
  | none => .ok r
  | some ⟨slot, intake, value⟩ =>
    match value with
    -- no word has come that could be its value
    | none => .error .invalidValue
    | some value => { r with opened := none, waiting := false }.record slot intake value

/-- A value that begins, with its text or with the next word as its text. -/
def begin (r : Reading) (slot : Slot) (intake : Intake) (value : Option String) :
    Except UsageFault Reading := do
  let r ← r.settle
  .ok { r with opened := some ⟨slot, intake, value⟩, waiting := value.isNone }

/-- An option with its value in one word. -/
def attach (r : Reading) (spec : OptionSpec) (value : String) : Except UsageFault Reading := do
  (← r.settle).record (.option spec.name) spec.intake value

/-- A flag. -/
def raise (r : Reading) (spec : OptionSpec) : Except UsageFault Reading := r.attach spec "true"

/-- The question for help. -/
def askHelp (r : Reading) : Except UsageFault Reading := do
  let _ ← r.settle
  .error .help

/-- The argument is there already. -/
def hasArgument (r : Reading) : Bool :=
  (r.values.get? .argument).isSome || r.opened.any (·.slot = .argument)

end Reading

/-! ## Words -/

namespace Level

/-- A long option, with the text behind its equals sign. -/
def long (l : Level) (r : Reading) (name : String) (value : Option String) :
    Except UsageFault Reading :=
  if name = helpOption.1 then if value.isSome then .error .unwantedValue else r.askHelp
  else
    match l.options.find? (·.name == name) with
    | none => .error .unknownArgument
    | some spec =>
      match spec.intake, value with
      | .flag, some _ => .error .unwantedValue
      | .flag, none => r.raise spec
      | _, some value => r.attach spec value
      | intake, none => r.begin (.option name) intake none

/-- The value written directly behind the letter of an option. An equals sign may stand before
it. -/
def attached : List Char → Option String
  | [] => none
  | '=' :: rest => some (String.ofList rest)
  | rest => some (String.ofList rest)

/-- Letters behind one dash. -/
def short (l : Level) (r : Reading) : List Char → Except UsageFault Reading
  | [] => .ok r
  | c :: rest =>
    if c = helpOption.2 then r.askHelp
    else
      match l.options.find? (·.letter == some c) with
      | none => .error .unknownArgument
      | some spec =>
        match spec.intake, attached rest with
        -- flags may be written together, so the letters behind one are read on
        | .flag, _ => do l.short (← r.raise spec) rest
        | _, some value => r.attach spec value
        | intake, none => r.begin (.option spec.name) intake none

/-- A word that is no option. -/
def plain (l : Level) (r : Reading) (word : String) : Except UsageFault Reading :=
  match l.argument with
  | some intake =>
    if r.hasArgument then .error .unknownArgument else r.begin .argument intake (some word)
  | none =>
    -- behind two dashes the name of a command is an argument like others
    if r.optionsEnded && l.commands.contains word then .error .unknownArgument
    else .error .invalidCommand

/-- One word read. -/
def step (l : Level) (r : Reading) (word : String) : Except UsageFault Reading :=
  if r.optionsEnded then l.plain r word
  else
    match word.toList with
    | ['-', '-'] => .ok { r with optionsEnded := true, waiting := false }
    | '-' :: '-' :: rest =>
      let name := rest.takeWhile (· ≠ '=')
      let value := (rest.drop name.length).tail?.map String.ofList
      l.long r (String.ofList name) value
    | '-' :: c :: rest => l.short r (c :: rest)
    | _ =>
      -- a word that begins with a dash is never the value of an option in front of it
      if r.waiting then
        .ok { r with
          opened := r.opened.map fun o => { o with value := some word }
          waiting := false }
      else l.plain r word

/-- The environment stands in for an option that has not been written. -/
def addStandIn (environment : Environment) (values : Values) (spec : OptionSpec) :
    Except UsageFault Values :=
  match values.get? (.option spec.name), spec.standIn.bind environment with
  -- what is written takes precedence, so the variable is not even checked then
  | none, some text =>
    if spec.intake.accepts text then .ok (values.set (.option spec.name) ⟨text, .environment⟩)
    else .error .invalidValue
  | _, _ => .ok values

/-- The values of a level at its end. -/
def finish (l : Level) (environment : Environment) (r : Reading) : Except UsageFault Values := do
  -- the level ends, so the value that is still open is checked now
  let r ← r.settle
  l.options.foldlM (addStandIn environment) r.values

end Level
end ModelGraph.CommandLine
