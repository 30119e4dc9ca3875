import ModelGraph.CommandLine.Run
import ModelGraph.CommandLine.Settings
import Std.Time.Zoned

/-!
# The program

Reads the command line and the files that the command may touch, carries the command out, and
writes what has changed.
-/

namespace ModelGraph.CommandLine

/-! ## Messages -/

/-- What is said about a command line that cannot be carried out. -/
def UsageFault.message : UsageFault → String
  | help => "usage: model-engine [OPTIONS] <COMMAND>"
  | helpInstead => "usage: model-engine [OPTIONS] <COMMAND>"
  | unknownArgument => "error: unexpected argument"
  | invalidCommand => "error: unrecognized subcommand"
  | missingCommand => "error: a subcommand is required"
  | missingArgument => "error: a required argument is missing"
  | invalidValue => "error: invalid value"
  | unwantedValue => "error: unexpected value"
  | repeated => "error: an argument cannot be used multiple times"

/-- The lines about the causes of a failure. They are numbered if there are several. -/
def causeLines : List String → List String
  | [] => []
  | [cause] => ["", "Caused by:", "    " ++ cause]
  | causes => ["", "Caused by:"] ++ causes.zipIdx.map fun (cause, i) =>
      "    " ++ String.ofList (Text.decimal i) ++ ": " ++ cause

/-- The text about a failure. -/
def failureText (f : Failure) : String :=
  Text.joined "\n" (("Error: " ++ f.chain.head?.getD "") :: causeLines f.chain.tail)

/-! ## Files -/

/-- How deep directories are looked into. -/
def deepest : Nat := 64

/-- The tree with what stands at a path. -/
def notice (t : FileTree) (path : String) : IO FileTree := do
  try
    let real ← IO.FS.realPath path
    if ← real.isDir then return (t.makeDirectories path).2
    let text ← IO.FS.readFile path
    return ((t.makeParent path).2.write path text).toOption.getD t
  catch _ => return t

/-- The tree with what stands at a path and on the way to it. -/
def noticeWay (t : FileTree) (path : String) : IO FileTree :=
  (Path.upwards path).reverse.foldlM notice t

/-- The tree with everything below a directory. -/
def noticeTree : Nat → FileTree → String → IO FileTree
  | 0, t, _ => return t
  | depth + 1, t, path => do
    let t ← noticeWay t path
    if t.isDirectory path then
      let entries ← (← IO.FS.realPath path).readDir
      entries.foldlM (fun t entry => noticeTree depth t (Path.join path entry.fileName)) t
    else return t

/-- The path of a place. -/
def pathOfPlace (place : List String) : String := "/" ++ Text.joined "/" place

/-- What has changed between two trees carried over to the disk. -/
def writeChanges (before after : FileTree) : IO Unit := do
  for place in after.directories do
    if !before.directories.contains place then IO.FS.createDirAll (pathOfPlace place)
  for (place, text) in after.files.entries do
    if before.files.get? place != some text then IO.FS.writeFile (pathOfPlace place) text
  for (place, _) in before.files.entries do
    if (after.files.get? place).isNone then IO.FS.removeFile (pathOfPlace place)

/-! ## Surroundings -/

/-- The local time. -/
def localTime : IO Timestamp := do
  let now ← Std.Time.PlainDateTime.now
  return ⟨now.year.toInt, now.month.toNat, now.day.toNat, now.hour.toNat, now.minute.toNat,
    now.second.toNat⟩

/-- The variables of the environment that stand in for options. -/
def environment : IO Environment := do
  let names := globalOptions.filterMap OptionSpec.standIn
  let found ← names.filterMapM fun name => do
    return (← IO.getEnv name).map fun value => (name, value)
  return fun name => found.lookup name

/-- An invocation carried out. The answer is the exit code. -/
def carryOut (invocation : Invocation) : IO UInt32 := do
  let root := FileTree.empty (Path.segments (← IO.currentDir).toString)
  let known ← invocation.overrides.config.toList.foldlM noticeWay root
  match invocation.overrides.configuration known with
  | .error f =>
    IO.eprintln (failureText (f.within "Failed to load configuration"))
    return 1
  | .ok c =>
    let reach := invocation.command.reach c
    let before ← reach.trees.foldlM (noticeTree deepest) root
    let before ← reach.files.foldlM noticeWay before
    let effect := run c (← localTime) invocation.command before
    writeChanges before effect.files
    IO.print effect.printed
    match effect.result with
    | .ok () => return 0
    | .error f =>
      IO.eprintln (failureText f)
      return 1

end ModelGraph.CommandLine

open ModelGraph.CommandLine in
/-- The program. -/
def main (words : List String) : IO UInt32 := do
  match Invocation.read (← environment) words with
  | .ok invocation => carryOut invocation
  | .error fault =>
    if fault = .help then
      IO.println fault.message
      return 0
    else
      IO.eprintln fault.message
      return 2
