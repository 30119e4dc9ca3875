import ModelGraph.Document.Event
import ModelGraph.Json.Token

/-!
# JSON grammar

Checking the order of JSON tokens, and turning them into document events. The state is what may
come next and which containers are open, so that texts of any depth are read.
-/

namespace ModelGraph.Json

open ModelGraph.Document

/-- A container that is open. -/
inductive Container where
  | array
  | object
  deriving DecidableEq, Repr

/-- What may come next. `firstValue` and `firstKey` also allow the end of the container, and
`separator` stands after a value. -/
inductive Expecting where
  | value
  | firstValue
  | key
  | firstKey
  | colon
  | separator
  deriving DecidableEq, Repr

/-- The events of the tokens that are left, given what may come next and the containers that are
open, innermost first. The text ends with the outermost value. -/
def eventsFrom? : Expecting → List Container → List Token → Option (List (Event Leaf))
  | .separator, [], [] => some []
  | _, _, [] => none
  | expecting, containers, token :: rest =>
    match expecting, token, containers with
    | .value, .leaf l, cs => (eventsFrom? .separator cs rest).map (.leaf l :: ·)
    | .firstValue, .leaf l, cs => (eventsFrom? .separator cs rest).map (.leaf l :: ·)
    | .value, .openArray, cs =>
        (eventsFrom? .firstValue (.array :: cs) rest).map (.openSeq false :: ·)
    | .firstValue, .openArray, cs =>
      (eventsFrom? .firstValue (.array :: cs) rest).map (.openSeq false :: ·)
    | .value, .openObject, cs =>
        (eventsFrom? .firstKey (.object :: cs) rest).map (.openMap false :: ·)
    | .firstValue, .openObject, cs =>
      (eventsFrom? .firstKey (.object :: cs) rest).map (.openMap false :: ·)
    -- an empty container ends at once, while a comma has to be followed by a value or a key
    | .firstValue, .closeArray, .array :: cs =>
      (eventsFrom? .separator cs rest).map (.closeSeq :: ·)
    | .key, .leaf (.string s), cs => (eventsFrom? .colon cs rest).map (.leaf (.string s) :: ·)
    | .firstKey, .leaf (.string s), cs => (eventsFrom? .colon cs rest).map (.leaf (.string s) :: ·)
    | .firstKey, .closeObject, .object :: cs =>
      (eventsFrom? .separator cs rest).map (.closeMap :: ·)
    | .colon, .colon, cs => eventsFrom? .value cs rest
    -- behind a comma the innermost container says what comes next
    | .separator, .comma, .array :: cs => eventsFrom? .value (.array :: cs) rest
    | .separator, .comma, .object :: cs => eventsFrom? .key (.object :: cs) rest
    | .separator, .closeArray, .array :: cs => (eventsFrom? .separator cs rest).map (.closeSeq :: ·)
    | .separator, .closeObject, .object :: cs =>
      (eventsFrom? .separator cs rest).map (.closeMap :: ·)
    | _, _, _ => none

/-- The events of a JSON text. -/
def events? (s : List Char) : Option (List (Event Leaf)) :=
  (tokens? s).bind (eventsFrom? .value [])

end ModelGraph.Json
