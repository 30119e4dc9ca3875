import ModelGraph.CommandLine.Failure

/-!
# Steps of commands

Steps that may change files and print text until one of them fails. What has been changed and
printed before a failure stays.
-/

namespace ModelGraph.CommandLine

/-- What a step leaves behind: its result, the files, and the text it has printed. -/
structure Effect (α : Type) where
  result : Except Failure α
  files : FileTree
  printed : String

/-- A step of a command. -/
abbrev Step (α : Type) := FileTree → Effect α

namespace Step

variable {ε α β : Type}

/-- The step that only answers. -/
def pure (a : α) : Step α := fun t => ⟨.ok a, t, ""⟩

/-- One step after another. -/
def andThen (first : Step α) (next : α → Step β) : Step β := fun t =>
  match first t with
  | ⟨.ok a, t, printed⟩ =>
    let second := next a t
    { second with printed := printed ++ second.printed }
  | ⟨.error e, t, printed⟩ => ⟨.error e, t, printed⟩

instance : Monad Step where
  pure := pure
  bind := andThen

/-- The step that only fails. -/
def fail (failure : Failure) : Step α := fun t => ⟨.error failure, t, ""⟩

/-- The step that prints a text. -/
def print (text : String) : Step Unit := fun t => ⟨.ok (), t, text⟩

/-- A result that does not depend on the files. -/
def ofExcept (wrap : ε → Failure) (result : Except ε α) : Step α := fun t =>
  ⟨result.mapError wrap, t, ""⟩

/-- A question about the files. -/
def ask (question : FileTree → α) : Step α := fun t => ⟨.ok (question t), t, ""⟩

/-- A question about the files that may have no answer. -/
def look (wrap : ε → Failure) (question : FileTree → Except ε α) : Step α := fun t =>
  ⟨(question t).mapError wrap, t, ""⟩

/-- A step on the files. -/
def act (wrap : ε → Failure) (action : FileAction ε α) : Step α := fun t =>
  let (result, t) := action t
  ⟨result.mapError wrap, t, ""⟩

end Step

/-! ## Status lines -/

/-- The width of the labels of status lines. -/
def labelWidth : Nat := 12

/-- A status line: a mark, a label and what it is about. -/
def status (label detail : String) (good : Bool) : Step Unit :=
  let mark := if good then "✔" else "✘"
  let space := String.ofList (List.replicate (labelWidth - label.length) ' ')
  Step.print (mark ++ " " ++ label ++ space ++ " " ++ detail ++ "\n")

end ModelGraph.CommandLine
