import ModelGraph.Configuration.Basic
import ModelGraph.Json.Reader
import ModelGraph.Toml.Reader

/-!
# Configuration files

Settings in JSON or TOML text. Every field may be missing, and fields that are not known are passed
over.

- `Configuration.ofText?`: the settings of a text.
-/

namespace ModelGraph

open Document

variable {σ : Type}

/-- The fields of compile options as far as they have been read. -/
structure CompileOptions.Draft where
  deploymentType : Option String := none
  baseTaskType : Option String := none
  softwareDomain : Option String := none
  defaultDeployer : Option String := none
  defaultHost : Option String := none
  preOperationalState : Option String := none

/-- How compile options are read. -/
def CompileOptions.reader (c : Context σ) :
    RecordReader σ CompileOptions.Draft CompileOptions where
  start := {}
  fields := [
    field "deployment_type" (·.deploymentType) (fun v d => { d with deploymentType := some v })
      fun _ => c.text,
    field "base_task_type" (·.baseTaskType) (fun v d => { d with baseTaskType := some v })
      fun _ => c.text,
    field "software_domain" (·.softwareDomain) (fun v d => { d with softwareDomain := some v })
      fun _ => c.text,
    field "default_deployer" (·.defaultDeployer) (fun v d => { d with defaultDeployer := some v })
      fun _ => c.text,
    field "default_host" (·.defaultHost) (fun v d => { d with defaultHost := some v })
      fun _ => c.text,
    field "pre_operational_state" (·.preOperationalState)
      (fun v d => { d with preOperationalState := some v }) fun _ => c.text]
  finish := fun d =>
    let standard : CompileOptions := {}
    some {
      deploymentType := d.deploymentType.getD standard.deploymentType
      baseTaskType := d.baseTaskType.getD standard.baseTaskType
      softwareDomain := d.softwareDomain.getD standard.softwareDomain
      defaultDeployer := d.defaultDeployer.getD standard.defaultDeployer
      defaultHost := d.defaultHost.getD standard.defaultHost
      preOperationalState := d.preOperationalState.getD standard.preOperationalState }

/-- The fields of a configuration as far as they have been read. -/
structure Configuration.Draft where
  storeRoot : Option String := none
  subgraphDir : Option String := none
  outputDir : Option String := none
  logLevel : Option String := none
  jsonLogs : Option Bool := none
  compile : Option CompileOptions := none

/-- How a configuration is read. -/
def Configuration.reader (c : Context σ) : RecordReader σ Configuration.Draft Configuration where
  start := {}
  fields := [
    field "store_root" (·.storeRoot) (fun v d => { d with storeRoot := some v }) fun _ => c.text,
    field "subgraph_dir" (·.subgraphDir) (fun v d => { d with subgraphDir := some v })
      fun _ => c.text,
    field "output_dir" (·.outputDir) (fun v d => { d with outputDir := some v }) fun _ => c.text,
    field "log_level" (·.logLevel) (fun v d => { d with logLevel := some v }) fun _ => c.text,
    field "json_logs" (·.jsonLogs) (fun v d => { d with jsonLogs := some v }) fun _ => c.bool,
    field "compile" (·.compile) (fun v d => { d with compile := some v })
      (c.record (CompileOptions.reader c))]
  finish := fun d =>
    let standard : Configuration := {}
    some {
      storeRoot := d.storeRoot.getD standard.storeRoot
      subgraphDir := d.subgraphDir.getD standard.subgraphDir
      outputDir := d.outputDir.getD standard.outputDir
      logLevel := d.logLevel.getD standard.logLevel
      jsonLogs := d.jsonLogs.getD standard.jsonLogs
      compile := d.compile.getD standard.compile }

/-- The settings of a document. -/
def Configuration.ofDocument? (c : Context σ) : Option Configuration :=
  (c.run (c.record (Configuration.reader c))).toOption

/-- The settings of a text, which is taken for JSON if it can be, and for TOML otherwise. -/
def Configuration.ofText? (text : String) : Option Configuration :=
  (Configuration.ofDocument? (Json.context text)).or
    (Configuration.ofDocument? (Toml.context text))

end ModelGraph
