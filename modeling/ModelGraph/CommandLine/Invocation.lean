import ModelGraph.CommandLine.Words

/-!
# Invocations

A command line with its environment, as the command to run and the settings that take precedence
over the configuration file.

- `Invocation.read`: the invocation that words and environment stand for.
-/

namespace ModelGraph.CommandLine

/-- A command with its arguments. -/
inductive Command where
  | resolve (name version : String) (definition output : Option String)
  | compile (graph : String) (output : Option String)
  | importDescriptor (descriptor : String) (store : Bool) (output : Option String)
  | store (definition : String)
  | motionTask (graph version : String) (graphFile : Option String)
  deriving DecidableEq, Repr

/-- Settings from the command line and the environment. -/
structure Overrides where
  config : Option String
  storeRoot : Option String
  subgraphDir : Option String
  outputDir : Option String
  logLevel : Option String
  jsonLogs : Bool
  deriving DecidableEq, Repr

/-- A command to run under settings. -/
structure Invocation where
  overrides : Overrides
  command : Command
  deriving DecidableEq, Repr

/-! ## Values -/

/-- The text of an option. -/
def Values.text? (values : Values) (name : String) : Option String :=
  (values.get? (.option name)).map GivenValue.text

/-- A flag is set. -/
def Values.isSet (values : Values) (name : String) : Bool := values.text? name == some "true"

/-- The value of two levels. The one behind the command counts, unless it comes from the
environment and the other one is written. -/
def GivenValue.prefer : Option GivenValue → Option GivenValue → Option GivenValue
  | outer, none => outer
  | none, inner => inner
  | some outer, some inner =>
    if outer.origin = .written ∧ inner.origin = .environment then some outer else some inner

/-- The text of a global option at both levels. -/
def globalText? (outer inner : Values) (name : String) : Option String :=
  (GivenValue.prefer (outer.get? (.option name)) (inner.get? (.option name))).map GivenValue.text

/-- The settings of both levels. -/
def Overrides.ofValues (outer inner : Values) : Overrides where
  config := globalText? outer inner "config"
  storeRoot := globalText? outer inner "store-root"
  subgraphDir := globalText? outer inner "subgraph-dir"
  outputDir := globalText? outer inner "output-dir"
  logLevel := globalText? outer inner "log-level"
  jsonLogs := globalText? outer inner "json-logs" == some "true"

/-- The version that is meant when none is given. -/
def standardVersion : String := "v1"

/-- A command with the values behind its name. -/
def Command.ofValues (name : CommandName) (argument : String) (values : Values) : Command :=
  let version := (values.text? "version").getD standardVersion
  match name with
  | .resolve => resolve argument version (values.text? "definition") (values.text? "output")
  | .compile => compile argument (values.text? "output")
  | .importDescriptor =>
    importDescriptor argument (values.isSet "store") (values.text? "output")
  | .store => store argument
  | .motionTask => motionTask argument version (values.text? "graph-file")

/-! ## Command lines -/

/-- The words behind the command that asks for help. They lead to a command, and no command has
commands of its own. -/
def helpFault : List String → UsageFault
  | [] => .help
  | [word] => if rootLevel.commands.contains word then .help else .invalidCommand
  | _ => .invalidCommand

/-- The words up to the name of a command, and what stands behind that name. -/
def readRoot (r : Reading) :
    List String → Except UsageFault (Reading × Option (CommandName × List String))
  | [] => .ok (r, none)
  | word :: rest =>
    -- a word that is waited for is a value, even if it is the name of a command
    if r.optionsEnded || r.waiting then do readRoot (← rootLevel.step r word) rest
    else if word = helpCommand then .error (helpFault rest)
    else
      match CommandName.ofWord? word with
      | some name => .ok (r, some (name, rest))
      | none => do readRoot (← rootLevel.step r word) rest

/-- The words behind the name of a command. The argument must be among them. -/
def readCommand (environment : Environment) (name : CommandName) (words : List String) :
    Except UsageFault (Command × Values) := do
  let r ← words.foldlM name.level.step {}
  let values ← name.level.finish environment r
  match values.get? .argument with
  | some argument => .ok (Command.ofValues name argument.text values, values)
  | none => .error .missingArgument

/-- The invocation that words and environment stand for. The words behind the command are checked
completely before the values in front of it. -/
def Invocation.read (environment : Environment) (words : List String) :
    Except UsageFault Invocation := do
  match ← readRoot {} words with
  | (r, some (name, rest)) => do
    let (command, inner) ← readCommand environment name rest
    let outer ← rootLevel.finish environment r
    .ok ⟨Overrides.ofValues outer inner, command⟩
  | (r, none) => do
    -- without a command the options are still checked
    let values ← rootLevel.finish environment r
    .error (if values.isEmpty then .helpInstead else .missingCommand)

end ModelGraph.CommandLine
