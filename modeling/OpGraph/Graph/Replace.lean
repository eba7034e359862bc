import OpGraph.Graph.Edit

/-!
# Replacement

Moving the consumers of one value, or of all outputs of a node, to other values, and carrying
metadata from the replaced nodes to those that stand in for them.  All handles are checked before the
first edge moves.
-/

namespace OpGraph

/-- The given name of `old`, if `new` is to take it over: `old` has a single output and a given name,
and `new` has none and is not a parameter. -/
def Node.nameFor (old new : Node) : Option String :=
  if old.outputs.length = 1 ∧ new.givenName = none ∧ new.kind ≠ .parameter then old.givenName
  else none

namespace Edit

/-- Makes everything that reads `old` read `new`, apart from the node of `new` itself, so that a node
can be put behind the value it reads.  The name moves along as `Node.nameFor` says. -/
def replaceOutput (old new : Output) : Edit Unit := do
  let _ ← query (·.desc new)
  let targets ← query (·.targets old)
  if old ≠ new then
    let oldNode ← query (·.node old.node)
    let newNode ← query (·.node new.node)
    (targets.filter (·.node ≠ new.node)).forM (connect · new)
    if let some name := oldNode.nameFor newNode then
      setName new.node name

/-- Replaces the outputs of a node, in order, by as many values. -/
def replaceNodeWith (old : NodeId) (values : List Output) : Edit Unit := do
  let n ← query (·.node old)
  if n.outputs.length ≠ values.length then
    throw (.shapeMismatch n.description
      s!"replacement provides {values.length} output(s), node has {n.outputs.length}")
  values.forM fun v => discard (query (·.desc v))
  values.zipIdx.forM fun (v, i) => replaceOutput ⟨old, i⟩ v

/-- Replaces each output of `old` by the output of `new` with the same number.  The replaced node
stays; it is unused unless `new` reads it. -/
def replaceNode (old new : NodeId) : Edit Unit := do
  if old = new then
    let n ← query (·.node old)
    throw (.structuralViolation s!"cannot replace {n.description} with itself")
  let n ← query (·.node new)
  replaceNodeWith old n.values

end Edit

/-- The metadata of several nodes in one map.  The last value of a key counts, but the names of fused
nodes are united. -/
def Metadata.gather (ms : List Metadata) : Metadata :=
  let merged := ms.foldl merge ∅
  let names := unionFusedNames ms
  if names.isEmpty then merged else merged.insert fusedNames (.names names)

/-- Merges the metadata of some nodes into each of some others.  All of it is read before anything is
written. -/
def Edit.copyMetadata (sources targets : List NodeId) : Edit Unit := do
  let nodes ← sources.mapM fun id => query (·.node id)
  let gathered := Metadata.gather (nodes.map (·.metadata))
  targets.forM fun id => discard (query (·.node id))
  targets.forM fun id => updateNode id fun n => { n with metadata := n.metadata.merge gathered }

end OpGraph
