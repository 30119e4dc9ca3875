import ModelGraph.Descriptor.Validate
import ModelGraph.Text.Basic

/-!
# Configuration

Where models, subgraphs and results lie, how graphs are compiled, and what is logged. There is a
value for everything that is not said otherwise.
-/

namespace ModelGraph

/-- The settings of a run. -/
structure Configuration where
  storeRoot : String := "bagel_db"
  subgraphDir : String := "../mars_bagel/bagel/"
  outputDir : String := "tmp"
  logLevel : String := "info"
  jsonLogs : Bool := false
  compile : CompileOptions := {}
  deriving DecidableEq, Repr

/-- What makes settings useless. -/
inductive ConfigurationFault where
  | noOutputDir
  | noLogLevel
  | noCompileTypes
  deriving DecidableEq, Repr

/-- The text of a fault in settings. -/
def ConfigurationFault.message : ConfigurationFault → String
  | noOutputDir => "output_dir must not be empty"
  | noLogLevel => "log_level must not be empty"
  | noCompileTypes => "compile.deployment_type and compile.base_task_type must be set"

/-- The first thing that makes settings useless. -/
def Configuration.fault? (c : Configuration) : Option ConfigurationFault :=
  if c.outputDir.isEmpty then some .noOutputDir
  else if Text.isBlank c.logLevel.toList then some .noLogLevel
  else if c.compile.deploymentType.isEmpty || c.compile.baseTaskType.isEmpty then
    some .noCompileTypes
  else none

end ModelGraph
