import ModelGraph.Document.Reader

/-!
# Document errors

Why a document could not be had: its YAML or JSON text is faulty, or its file cannot be read. The
readers do not describe a fault of a text, so a fixed word stands in its place.
-/

namespace ModelGraph

/-- Why an operation on files fails. -/
inductive FileFault where
  | notFound
  | exists
  | notDirectory
  | isDirectory
  | nameTooLong
  | invalidName
  deriving DecidableEq, Repr

/-- The text of a fault of an operation on files. -/
def FileFault.message : FileFault → String
  | notFound => "No such file or directory (os error 2)"
  | .exists => "File exists (os error 17)"
  | notDirectory => "Not a directory (os error 20)"
  | isDirectory => "Is a directory (os error 21)"
  | nameTooLong => "File name too long (os error 36)"
  | invalidName => "file name contained an unexpected NUL byte"

/-- The word that stands for the description of a fault of a text. -/
def undescribed : String := "<library>"

/-- Why a document could not be had. -/
inductive DocumentError where
  | yaml (fault : Document.Fault)
  | json (fault : Document.Fault)
  | file (fault : FileFault)
  deriving Repr

/-- The text of a document error. -/
def DocumentError.message : DocumentError → String
  | yaml _ => "YAML error: " ++ undescribed
  | json _ => "JSON error: " ++ undescribed
  | file fault => "I/O error: " ++ fault.message

/-- What lies behind a document error. -/
def DocumentError.cause : DocumentError → String
  | yaml _ => undescribed
  | json _ => undescribed
  | file fault => fault.message

end ModelGraph
