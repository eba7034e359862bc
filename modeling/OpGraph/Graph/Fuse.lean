import OpGraph.Graph.Replace

/-!
# Fusing nodes

A group of nodes is replaced by a single one that keeps track of where it comes from: it inherits the
metadata of the group and lists the names of all nodes it stands for.
-/

namespace OpGraph

/-- The names that a node stands for: its own, unless it was fused from others. -/
def Node.fusedNames (n : Node) : NameSet :=
  match n.metadata.fusedNames? with
  | some names => names
  | none => .ofList [n.friendlyName]

/-- The names that a node of the graph stands for. -/
def Graph.fusedNames (g : Graph) (id : NodeId) : Except GraphError NameSet := do
  return (← g.node id).fusedNames

/-- Replaces `root` by `fused`, which stands for the nodes of `group`.  Their metadata is merged
into `fused` before the consumers move, and `fused` is named after `root` unless it has a name. -/
def Edit.fuse (group : List NodeId) (root fused : NodeId) : Edit Unit := do
  let sets ← group.mapM fun id => query (·.fusedNames id)
  let rootNode ← query (·.node root)
  copyMetadata group [fused]
  replaceNode root fused
  setMetadata fused Metadata.fusedNames (.names (sets.foldl NameSet.union ∅))
  if (← query (·.node fused)).givenName = none then
    setName fused rootNode.friendlyName

end OpGraph
