import OpGraph.Graph.Edit
import OpGraph.Graph.Reach

/-!
# Inference on the graph

The description of every output is kept with the node that produces it.  Edits do not bring the
descriptions up to date; `Edit.revalidate` does so for one node and `Edit.validate` for all that the
boundary hangs on, producers first.
-/

namespace OpGraph

/-- The descriptions of a node's outputs that follow from those of the values it reads.  The number
of outputs is fixed when the node is made. -/
def Graph.reinfer (g : Graph) (id : NodeId) : Except GraphError (List Desc) := do
  let descs ← g.inputDescs id
  let n ← g.node id
  match n.op.infer descs with
  | .error e => throw (e.at n.description)
  | .ok outs =>
    if outs.length ≠ n.outputs.length then
      throw (.shapeMismatch n.description
        s!"inference produced {outs.length} output(s), node has {n.outputs.length}")
    return outs

/-- The node with other descriptions of its outputs. -/
def Node.withDescs (n : Node) (descs : List Desc) : Node :=
  { n with outputs := n.outputs.zipWith (fun s d => { s with desc := d }) descs }

namespace Edit

/-- Brings the descriptions of a node's outputs up to date, and says whether any of them changed. -/
def revalidate (id : NodeId) : Edit Bool := do
  let outs ← query (·.reinfer id)
  let n ← query (·.node id)
  modify (·.modifyNode id (·.withDescs outs))
  return n.descs ≠ outs

/-- Brings the descriptions of all that the boundary hangs on up to date.  It stops at the first node
whose inputs the inference rule rejects. -/
def validate : Edit Unit := do
  (← get).order.forM fun id => discard (revalidate id)

end Edit

end OpGraph
