import ModelGraph.CommandLine.Invocation
import ModelGraph.CommandLine.Step
import ModelGraph.Configuration.Basic
import ModelGraph.Descriptor.Import
import ModelGraph.Graph.Document
import ModelGraph.MotionTask
import ModelGraph.Resolution.Resolve
import ModelGraph.Store.File

/-!
# Running commands

What the commands do: a mechanics component expanded into a control graph, a software graph compiled
into descriptors, a descriptor imported, and definitions put into the store.
-/

namespace ModelGraph.CommandLine

/-! ## Files -/

/-- A text written to a file, whose directory is made first. -/
def writeText (path text : String) : Step Unit := do
  Step.act id (FileAction.makeParent
    (fun directory fault => fault.failure.within ("Failed to create " ++ directory)) path)
  Step.act id (FileAction.write (fun fault => fault.failure.within ("Failed to write " ++ path))
    path text)

/-- The document in a YAML file. -/
def readDocument (circumstance path : String) : Step Tree :=
  Step.look (fun e => e.failure.within circumstance) fun t => t.readYaml path

/-! ## The store -/

/-- The store of a configuration. -/
def storeOf (c : Configuration) (files : FileTree) : FileStore := ⟨c.storeRoot, files⟩

/-- A step on the store. -/
def onStore {ε α : Type} (c : Configuration) (wrap : ε → Failure)
    (step : FileStore → Except ε α × FileStore) : Step α :=
  Step.act wrap fun t =>
    let (result, store) := step (storeOf c t)
    (result, store.files)

/-- A definition put into the store. Its identity is answered. -/
def storeDefinition (c : Configuration) (definition : Tree) : Step ComponentId := do
  let id ← Step.ofExcept StoreError.failure (ComponentId.ofDefinition definition)
  onStore c (fun e => e.failure.within ("Failed to store " ++ id.toText)) (·.put definition)
  return id

/-! ## Resolution -/

/-- The definition of a mechanics component: in a file, or else in the store. -/
def mechanicsDefinition (c : Configuration) (name version : String) :
    Option String → Step Tree
  | some path => readDocument ("Failed to read definition " ++ path) path
  | none => do
    let id : ComponentId := ⟨mechanicsDomain, name, version⟩
    let definition ← Step.look (fun e => e.failure.within ("Failed to fetch " ++ id.toText))
      fun t => (storeOf c t).fetch id
    -- a store answers the map without entries for what it does not have
    if definition.isEmpty then
      Step.fail (.of ("component " ++ id.toText ++ " not found in " ++ c.storeRoot))
    else return definition

/-- A mechanics component expanded into a control graph, which is written to a file. -/
def resolve (c : Configuration) (name version : String) (definition : Option String)
    (output : String) : Step ResolveReport := do
  let document ← mechanicsDefinition c name version definition
  let sources ← Step.ask fun t =>
    (⟨(storeOf c t).source, SubgraphLibrary.ofDirectory t c.subgraphDir⟩ : Sources)
  -- each command has a session of its own, so nothing is known from before
  let resolution := Session.fresh.convert sources ⟨.control, Graph.empty⟩ document
  let report ← Step.ofExcept (fun e => e.failure.within ("Failed to resolve " ++ name))
    resolution.result
  writeText output resolution.graph.toYaml
  return report

/-- The file of the control graph of a component. -/
def controlPath (c : Configuration) (name : String) : String :=
  Path.join c.outputDir (name ++ "_control.yml")

/-- What the status line says about a report. -/
def reportText (output : String) (r : ResolveReport) : String :=
  let count (n : Nat) : String := String.ofList (Text.decimal n)
  output ++ " (" ++ count r.nodesAdded ++ " nodes, " ++ count r.edgesAdded ++ " edges added, " ++
    count r.lookupMisses ++ " missing)"

/-! ## Compilation -/

/-- The graph of a file holds JSON by its name, and YAML otherwise. -/
def isJsonName (path : String) : Bool :=
  (Path.extension? path).any fun extension => Text.sameIgnoringAsciiCase extension "json"

/-- A software graph compiled into descriptors, which are written to files. -/
def compile (c : Configuration) (graph output : String) : Step DescriptorPaths := do
  let text ← Step.look (fun fault => fault.failure.within ("Failed to read graph " ++ graph))
    fun t => t.read graph
  let g ← Step.ofExcept (fun e => e.failure.within "Failed to parse software graph")
    (if isJsonName graph then Graph.ofJson text else Graph.ofYaml text)
  -- the graph is a software graph, whatever its file says
  let compiled ← Step.ofExcept (fun e => e.failure.within "Compilation failed")
    ((⟨.software, g⟩ : View).compile c.compile)
  Step.act (fun e => e.failure.within "Failed to write deployment descriptors")
    (compiled.write output)

/-- The name of a descriptor whose graph has none. -/
def unnamedDescriptor : String := "deployment"

/-- The file of the descriptor of a graph. -/
def descriptorPath (c : Configuration) (graph : String) : String :=
  Path.join c.outputDir ((Path.stem? graph).getD unnamedDescriptor ++ ".cnd")

/-! ## Import -/

/-- A descriptor turned into a definition, which is written to a file, put into the store, or else
printed. -/
def importDescriptor (c : Configuration) (now : Timestamp) (descriptor : String) (store : Bool)
    (output : Option String) : Step Unit := do
  let definition ← Step.look (fun e => e.failure.within ("Failed to import " ++ descriptor))
    fun t => Import.ofFile t descriptor now
  if let some path := output then
    writeText path (Yaml.render definition)
    status "Definition" path true
  if store then
    let id ← storeDefinition c definition
    status "Stored" id.toText true
  -- printed only where it would otherwise be lost
  if output.isNone && !store then
    Step.print (Yaml.render definition ++ "\n")

/-! ## Commands -/

/-- A command carried out under a configuration. -/
def run (c : Configuration) (now : Timestamp) : Command → Step Unit
  | .resolve name version definition output => do
    let path := output.getD (controlPath c name)
    let report ← resolve c name version definition path
    status "Control" (reportText path report) (report.lookupMisses == 0)
  | .compile graph output => do
    let paths ← compile c graph (output.getD (descriptorPath c graph))
    status "Descriptor" paths.primary true
    if let some pre := paths.pre then status "Pre" pre true
    status "Shutdown" paths.shutdown true
  | .importDescriptor descriptor store output => importDescriptor c now descriptor store output
  | .store path => do
    let id ← storeDefinition c (← readDocument ("Failed to read " ++ path) path)
    status "Stored" id.toText true
  | .motionTask graph version graphFile => do
    let path := graphFile.getD (MotionTask.graphFilename c.outputDir graph version)
    let id ← onStore c (fun e => e.failure.within "Failed to create the motion control task")
      (MotionTask.store · version path)
    status "Stored" id.toText true

/-! ## What commands touch -/

/-- Single files, and directories with everything below them. -/
structure Reach where
  files : List String
  trees : List String
  deriving DecidableEq, Repr

/-- The file that a command writes, with the files beside it. -/
def descriptorFiles (primary : String) : List String :=
  [primary, DescriptorPaths.preOf primary, DescriptorPaths.shutdownOf primary]

/-- What a command may touch under a configuration. -/
def Command.reach (c : Configuration) : Command → Reach
  | .resolve name _ definition output =>
    ⟨definition.toList ++ [output.getD (controlPath c name)], [c.storeRoot, c.subgraphDir]⟩
  | .compile graph output => ⟨graph :: descriptorFiles (output.getD (descriptorPath c graph)), []⟩
  | .importDescriptor descriptor kept output =>
    ⟨descriptor :: output.toList, if kept then [c.storeRoot] else []⟩
  | .store definition => ⟨[definition], [c.storeRoot]⟩
  | .motionTask _ _ _ => ⟨[], [c.storeRoot]⟩

end ModelGraph.CommandLine
