import ModelGraph.Graph.Node

/-!
# Edges

The edges of a component graph. An edge leads from an output of a node to an input of a node, and
these four names identify it.
-/

namespace ModelGraph

/-- The names that identify an edge. Two edges between the same ports are one and the same, whatever
else they say. -/
structure Endpoints where
  fromNode : String
  fromPort : String
  toNode : String
  toPort : String
  deriving DecidableEq, Repr

/-- The weight of an edge that has none of its own. -/
def unitWeight : Binary64 := Binary64.ofNat 1

/-- An edge. The last fields hold how its data is transported and how it is drawn. Nothing is asked
of the trees in them, which are handed on as they are. -/
structure Edge where
  ends : Endpoints
  weight : Binary64 := unitWeight
  smooth : Bool := false
  transport : Option Tree := none
  dataType : Option Tree := none
  size : Option Tree := none
  vertices : Option Tree := none
  decoupledVertices : Option Tree := none
  deriving DecidableEq, Repr

namespace Edge

/-- An edge between ports. -/
def between (ends : Endpoints) : Edge := { ends }

/-- An edge of a control graph, which is smoothed. -/
def control (ends : Endpoints) : Edge := { ends, smooth := true }

/-- The two edges join the same ports. -/
def sameEnds (e f : Edge) : Bool := e.ends == f.ends

/-- The edge begins or ends at a node. -/
def touches (e : Edge) (node : String) : Bool := e.ends.fromNode == node || e.ends.toNode == node

/-- The edge without its drawing, which does not fit any more once a node at one of its ends has
changed. -/
def withoutLayout (e : Edge) : Edge := { e with vertices := none, decoupledVertices := none }

/-- Comparison of edges, with numbers compared as numbers. -/
def same (e f : Edge) : Bool :=
  e.ends == f.ends && e.weight.same f.weight && e.smooth == f.smooth &&
    sameOption Tree.same e.transport f.transport && sameOption Tree.same e.dataType f.dataType &&
    sameOption Tree.same e.size f.size && sameOption Tree.same e.vertices f.vertices &&
    sameOption Tree.same e.decoupledVertices f.decoupledVertices

end Edge
end ModelGraph
