import ModelGraph.Yaml.Reader
import ModelGraph.Yaml.Printer

/-!
# Embedded documents

Documents of the model store hold other documents, either directly as a tree or as YAML text in a
leaf. Both forms stand for the same document.

- `Tree.embed`, `Tree.document?`: holding a document as text, and the document that is held.
- `Tree.document?_of_container`, `Tree.document?_embed_of_readTree`: the document of either form.
-/

namespace ModelGraph
namespace Tree

/-- The tree of a text, if the text holds a map or a sequence. A text that is read as a leaf is a
value of its own and holds no document. -/
def ofDocumentText? (text : String) : Option Tree :=
  match Yaml.readTree text with
  | .ok t => if t.isScalar then none else some t
  | .error _ => none

/-- The document that a tree is or holds as text. A leaf that holds none has no document. -/
def document? : Tree → Option Tree
  | scalar (.text value) => ofDocumentText? value
  | scalar _ => none
  | container => some container

/-- A tree as text in a leaf. The text is meant to be read back by `document?`, which takes it for
the tree that was written if reading the text gives this tree and the tree is no leaf. -/
def embed (t : Tree) : Tree := text (Yaml.render t)

/-! ## Laws -/

/-- A container is a document by itself. -/
theorem document?_of_container {t : Tree} (h : t.isScalar = false) : t.document? = some t := by
  cases t with
  | map m => rfl
  | seq items => rfl
  | scalar v => cases h

/-- What is read from a text is the document of the text, unless it is a leaf. -/
theorem ofDocumentText?_of_readTree {text : String} {t : Tree} (h : Yaml.readTree text = .ok t) :
    ofDocumentText? text = if t.isScalar then none else some t := by
  rw [ofDocumentText?, h]

/-- A tree that is held as text has the document that its text is read as. It need not be the tree
itself: what is read back has its leaves in their only form. -/
theorem document?_embed_of_readTree {t s : Tree} (h : Yaml.readTree (Yaml.render t) = .ok s)
    (hs : s.isScalar = false) : t.embed.document? = some s := by
  rw [embed, text, document?, ofDocumentText?_of_readTree h, hs, if_neg Bool.false_ne_true]

end Tree
end ModelGraph
