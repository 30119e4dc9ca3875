/-!
# Options and commands

What may be written on the command line: the options that hold for every command, and the commands
with their own options and the one argument that each of them needs.

- `globalOptions`: the options that may stand before and behind the name of a command.
- `CommandName.level`, `rootLevel`: what may be written behind the name of a command and before it.
-/

namespace ModelGraph.CommandLine

/-- What an option or an argument takes: nothing, any text, or the path of a file. -/
inductive Intake where
  | flag
  | text
  | path
  deriving DecidableEq, Repr

/-- The text may be taken. A path has to have at least one character, and a flag is set or not. -/
def Intake.accepts : Intake → String → Bool
  | flag, value => value == "true" || value == "false"
  | text, _ => true
  | path, value => value != ""

/-- An option: its long name, its letter, what it takes, and the variable of the environment that
stands in for it. -/
structure OptionSpec where
  name : String
  letter : Option Char := none
  intake : Intake
  standIn : Option String := none
  deriving DecidableEq, Repr

/-- What may be written at one level: options, one argument, and the names of commands. -/
structure Level where
  options : List OptionSpec
  argument : Option Intake
  commands : List String
  deriving DecidableEq, Repr

/-! ## Options -/

/-- The options that hold for every command. -/
def globalOptions : List OptionSpec := [
  { name := "config", letter := some 'c', intake := .path, standIn := some "MODEL_ENGINE_CONFIG" },
  { name := "store-root", intake := .path, standIn := some "MODEL_ENGINE_STORE_ROOT" },
  { name := "subgraph-dir", intake := .path, standIn := some "MODEL_ENGINE_SUBGRAPH_DIR" },
  { name := "output-dir", intake := .path, standIn := some "MODEL_ENGINE_OUTPUT_DIR" },
  { name := "log-level", intake := .text, standIn := some "MODEL_ENGINE_LOG_LEVEL" },
  { name := "json-logs", intake := .flag, standIn := some "MODEL_ENGINE_JSON_LOGS" }]

/-- The option that asks for help. -/
def helpOption : String × Char := ("help", 'h')

/-- The command that asks for help. -/
def helpCommand : String := "help"

/-- The file that a command writes. -/
def outputOption : OptionSpec := { name := "output", letter := some 'o', intake := .path }

/-- The version of a component. -/
def versionOption : OptionSpec := { name := "version", intake := .text }

/-! ## Commands -/

/-- The commands by their names. -/
inductive CommandName where
  | resolve
  | compile
  | importDescriptor
  | store
  | motionTask
  deriving DecidableEq, Repr

namespace CommandName

/-- All commands. -/
def all : List CommandName := [resolve, compile, importDescriptor, store, motionTask]

/-- The word for a command. -/
def word : CommandName → String
  | resolve => "resolve"
  | compile => "compile"
  | importDescriptor => "import"
  | store => "store"
  | motionTask => "bagel-task"

/-- The command of a word. -/
def ofWord? (word : String) : Option CommandName := all.find? (·.word == word)

/-- The options of a command. -/
def options : CommandName → List OptionSpec
  | resolve => [versionOption, { name := "definition", intake := .path }, outputOption]
  | compile => [outputOption]
  | importDescriptor => [{ name := "store", intake := .flag }, outputOption]
  | store => []
  | motionTask => [versionOption, { name := "graph-file", intake := .path }]

/-- What the argument of a command is. -/
def argument : CommandName → Intake
  | resolve => .text
  | compile => .path
  | importDescriptor => .path
  | store => .path
  | motionTask => .text

/-- What may be written behind the name of a command. -/
def level (name : CommandName) : Level := ⟨name.options ++ globalOptions, some name.argument, []⟩

end CommandName

/-- What may be written before the name of a command. -/
def rootLevel : Level :=
  ⟨globalOptions, none, CommandName.all.map CommandName.word ++ [helpCommand]⟩

end ModelGraph.CommandLine
