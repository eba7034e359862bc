/-!
# Handles

Nodes of a graph are named by their position in its arena, and the two ends of an edge by a node
together with the number of one of its outputs or inputs.
-/

namespace OpGraph

/-- The position of a node in the arena of its graph. -/
abbrev NodeId := Nat

/-- The written form of a node, such as `#3`. -/
def NodeId.text (id : NodeId) : String := "#" ++ toString id

/-- A value of the graph: one output of a node. -/
structure Output where
  node : NodeId
  index : Nat
  deriving DecidableEq, Repr, Inhabited

/-- The written form of a value, such as `#3:0`. -/
def Output.text (o : Output) : String := NodeId.text o.node ++ ":" ++ toString o.index

/-- A place where a value is read: one input of a node. -/
structure Input where
  node : NodeId
  index : Nat
  deriving DecidableEq, Repr, Inhabited

/-- The written form of an input, such as `#3<-0`. -/
def Input.text (i : Input) : String := NodeId.text i.node ++ "<-" ++ toString i.index

end OpGraph
