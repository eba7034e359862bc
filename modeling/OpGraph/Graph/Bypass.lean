import OpGraph.Graph.Release
import OpGraph.Graph.Replace

/-!
# Bypassing nodes

A node that passes one of its inputs through can be bypassed: what reads the node reads that input
instead.  The name of what a result reads is part of the interface of the graph, so a node in front
of a result is bypassed only if the value behind it can take over the name: it must not come from a
parameter, and nothing else may read it.
-/

namespace OpGraph

namespace Graph

/-- Some result reads the first output of the node. -/
def feedsResult (g : Graph) (id : NodeId) : Except GraphError Bool := do
  return (← g.targets ⟨id, 0⟩).any fun i => g.isKind i.node .result

/-- The node can be bypassed through one of its inputs. -/
def canBypass (g : Graph) (id : NodeId) (index : Nat) : Except GraphError Bool := do
  let n ← g.node id
  if n.outputs.length ≠ 1 then
    return false
  let source ← n.source index
  if ← g.feedsResult id then
    return !g.isKind source.node .parameter && g.consumerCount source == 1
  return true

/-- The value has exactly one consumer and does not belong to the boundary, so it can be absorbed by
what reads it. -/
def canFuse (g : Graph) (v : Output) : Bool :=
  g.consumerCount v == 1 && !g.isKind v.node .parameter && !g.isKind v.node .result

/-- The input that a binary node passes through when its other input is a constant filled with
`identity`.  The description of the result has to equal that of the input, so the constant does not
broadcast it. -/
def identityOperand? (g : Graph) (id : NodeId) (identity : Float) : Option Nat := do
  let n ← g.node? id
  match n.inputs, n.outputs with
  | [a, b], [out] =>
    let passes (data other : Output) : Bool :=
      g.isConstantFilledWith other identity &&
        match g.desc data with
        | .ok d => d = out.desc
        | .error _ => false
    if passes a b then some 0 else if passes b a then some 1 else none
  | _, _ => none

end Graph

/-- Makes what reads a node read its input `index` instead and releases the node if nothing uses it
any more.  Where the node fed a result, the node behind it takes over its name and metadata.  Nothing
happens, and the answer is no, when `Graph.canBypass` refuses. -/
def Edit.bypass (id : NodeId) (index : Nat) : Edit Bool := do
  unless ← query (·.canBypass id index) do
    return false
  let n ← query (·.node id)
  let source ← query (·.source ⟨id, index⟩)
  let feedsResult ← query (·.feedsResult id)
  let targets ← query (·.targets ⟨id, 0⟩)
  targets.forM (connect · source)
  if feedsResult then
    setName source.node n.friendlyName
    copyMetadata [source.node, id] [source.node]
  let _ ← release [id]
  return true

end OpGraph
