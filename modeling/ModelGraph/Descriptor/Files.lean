import ModelGraph.Descriptor.Compile
import ModelGraph.FileTree.Action

/-!
# Descriptor files

A compiled graph is written to up to three files of one directory: the descriptor, the descriptor
of the first stage beside it, and the descriptor that shuts everything down. A descriptor of a first
stage that is left from an earlier compilation is removed.
-/

namespace ModelGraph

/-- The files of a compiled graph. Without a first stage there is no second file. -/
structure DescriptorPaths where
  primary : String
  pre : Option String
  shutdown : String
  deriving DecidableEq, Repr

/-- Why descriptors cannot be written. -/
inductive DescriptorFileError where
  | file (path : String) (fault : FileFault)
  deriving DecidableEq, Repr

/-- The text of an error in writing descriptors. -/
def DescriptorFileError.message : DescriptorFileError → String
  | file path fault => "I/O error writing " ++ path ++ ": " ++ fault.message

namespace DescriptorPaths

/-- The file of the first stage: `<stem>_pre.cnd` beside the descriptor. -/
def preOf (primary : String) : String :=
  Path.withFileName primary ((Path.stem? primary).getD "" ++ "_pre.cnd")

/-- The file that shuts everything down: `shutdown.cnd` beside the descriptor. Its name does not
depend on that of the descriptor, so the two may be the same file. -/
def shutdownOf (primary : String) : String := Path.withFileName primary "shutdown.cnd"

end DescriptorPaths

namespace Compiled

/-- A text written to a file of the compiled graph. -/
def writeText (path text : String) : FileAction DescriptorFileError Unit :=
  FileAction.write (.file path) path text

/-- A file removed, if it is there. -/
def removeStale (path : String) : FileAction DescriptorFileError Unit := do
  -- a file that is not there is no failure, one that cannot be removed is
  if ← FileAction.ask (·.contains path) then FileAction.change (.file path) (·.remove path)

/-- The descriptor of the first stage written, or an earlier one removed. A descriptor that is left
would be one of another graph. -/
def writePre (path : String) : Option Descriptor → FileAction DescriptorFileError (Option String)
  | some pre => do
    writeText path pre.toYaml
    return some path
  | none => do
    removeStale path
    return none

/-- The descriptors of a compiled graph written, with the primary one to a given file. A failure
leaves what has been written by then. -/
def write (c : Compiled) (primary : String) : FileAction DescriptorFileError DescriptorPaths := do
  FileAction.makeParent .file primary
  writeText primary c.descriptor.toYaml
  -- beside the primary file, in the directory that has just been made
  let pre ← writePre (DescriptorPaths.preOf primary) c.pre
  let shutdown := DescriptorPaths.shutdownOf primary
  writeText shutdown Descriptor.shutdownText
  return { primary, pre, shutdown }

end Compiled
end ModelGraph
