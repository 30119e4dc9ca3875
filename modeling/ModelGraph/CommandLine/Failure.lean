import ModelGraph.Descriptor.Files
import ModelGraph.Resolution.Basic

/-!
# Failures

Why a command fails, told from the outermost circumstance to the innermost cause. An error that
lies in another one is told twice: inside the message of the outer one, and as its cause.
-/

namespace ModelGraph

/-- Messages from the outermost to the innermost. -/
structure Failure where
  chain : List String
  deriving DecidableEq, Repr

namespace Failure

/-- A failure without a deeper cause. -/
def of (message : String) : Failure := ⟨[message]⟩

/-- The failure under a circumstance. -/
def within (circumstance : String) (f : Failure) : Failure := ⟨circumstance :: f.chain⟩

end Failure

/-! ## Errors as failures -/

/-- A fault of an operation on files. -/
def FileFault.failure (fault : FileFault) : Failure := .of fault.message

/-- A document error, with what lies behind it. -/
def DocumentError.failure (e : DocumentError) : Failure := ⟨[e.message, e.cause]⟩

/-- A store error, with what lies behind it. -/
def StoreError.failure (e : StoreError) : Failure :=
  match e with
  | .file fault => fault.failure.within e.message
  | .document error => error.failure.within e.message
  | _ => .of e.message

/-- A graph error, with what lies behind it. -/
def GraphError.failure (e : GraphError) : Failure :=
  match e with
  | .document error => error.failure.within e.message
  | _ => .of e.message

/-- A resolution error, with what lies behind it. -/
def ResolveError.failure (e : ResolveError) : Failure :=
  match e with
  | .graph error => error.failure
  | _ => .of e.message

/-- A compilation error. -/
def CompileError.failure (e : CompileError) : Failure := .of e.message

/-- An error in writing descriptors, with what lies behind it. -/
def DescriptorFileError.failure (e : DescriptorFileError) : Failure :=
  match e with
  | .file _ fault => fault.failure.within e.message

end ModelGraph
