import ModelGraph.CommandLine.Failure
import ModelGraph.CommandLine.Invocation
import ModelGraph.Configuration.Document

/-!
# Settings of an invocation

The configuration that a command runs with: the configuration file, where there is one, under what
the command line and the environment say.
-/

namespace ModelGraph.CommandLine

/-- The configuration in a file. -/
def configurationFile (files : FileTree) (path : String) : Except Failure Configuration :=
  match files.read path with
  | .error fault => .error (fault.failure.within ("Failed to read config file " ++ path))
  | .ok text =>
    match Configuration.ofText? text with
    | some c => .ok c
    | none => .error ((Failure.of undescribed).within ("Failed to parse config file " ++ path))

/-- A configuration under the settings of an invocation. Logging as JSON can only be switched
on. -/
def Overrides.apply (o : Overrides) (c : Configuration) : Configuration :=
  { c with
    storeRoot := o.storeRoot.getD c.storeRoot
    subgraphDir := o.subgraphDir.getD c.subgraphDir
    outputDir := o.outputDir.getD c.outputDir
    logLevel := o.logLevel.getD c.logLevel
    jsonLogs := o.jsonLogs || c.jsonLogs }

/-- The configuration that an invocation runs with. -/
def Overrides.configuration (o : Overrides) (files : FileTree) : Except Failure Configuration := do
  let base ←
    match o.config with
    | some path => configurationFile files path
    | none => .ok {}
  let c := o.apply base
  match c.fault? with
  | some fault => .error (.of fault.message)
  | none => .ok c

end ModelGraph.CommandLine
