import OpGraph.Graph.Infer
import OpGraph.Graph.Release
import OpGraph.Graph.Replace
import OpGraph.Pass.Basic

/-!
# Constant folding

Every node whose outputs can be computed ahead of time, from constants or from static shapes alone,
is replaced by constants.  One walk in topological order is enough: after the first change each node is
brought up to date before it is looked at, so a fold makes the nodes behind it foldable.
-/

namespace OpGraph

/-- The name of the constant that stands for one of `count` outputs of a folded node. -/
def foldedName (base : String) (index count : Nat) : String :=
  if count = 1 then base else base ++ "." ++ toString index

/-- The output tensors of a node, as far as they are known ahead of time.  The boundary and the
constants themselves are never folded. -/
def Graph.fold? (g : Graph) (id : NodeId) : Except GraphError (Option (List Tensor)) := do
  let n ← g.node id
  if n.kind = .parameter ∨ n.kind = .result ∨ n.kind = .constant then
    return none
  let descs ← g.inputDescs id
  match n.op.fold (n.inputs.map g.constantValue?) descs with
  | some values => return if values.length = n.outputs.length then some values else none
  | none => return none

namespace Edit

/-- Adds a named constant. -/
def addNamedConstant (name : String) (value : Tensor) : Edit Output := do
  let v ← addConstant value
  setName v.node name
  return v

/-- Carries the metadata of a folded node to everything that reads one of its replacements. -/
def inheritMetadata (id : NodeId) (replacement : Output) : Edit Unit := do
  let targets ← query (·.targets replacement)
  targets.forM fun i => copyMetadata [id, i.node] [i.node]

/-- Replaces a node by constants if its outputs are known, and answers whether it did. -/
def foldNode (id : NodeId) : Edit Bool := do
  let n ← query (·.node id)
  match ← query (·.fold? id) with
  | none => return false
  | some values =>
    let replacements ← values.zipIdx.mapM fun (value, i) =>
      addNamedConstant (foldedName n.friendlyName i values.length) value
    replaceNodeWith id replacements
    replacements.forM (inheritMetadata id)
    let _ ← release [id]
    return true

/-- Folds the nodes that are still live, in order. -/
def foldNodes : List NodeId → Bool → Edit Bool
  | [], changed => return changed
  | id :: ids, changed => do
    if (← get).contains id then
      if changed then
        let _ ← revalidate id
      let folded ← foldNode id
      foldNodes ids (changed || folded)
    else foldNodes ids changed

/-- Folds everything that the boundary hangs on. -/
def foldConstants : Edit Bool := do
  foldNodes (← get).order false

end Edit

/-- The pass that folds constants. -/
def Pass.constantFolding {σ : Type} : Pass σ := .whole "ConstantFolding" (.edit Edit.foldConstants)

end OpGraph
