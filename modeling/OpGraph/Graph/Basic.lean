import OpGraph.Metadata
import OpGraph.Op.Basic

/-!
# Graphs

A graph is an arena of nodes addressed by their position.  The slot of a released node stays empty, so
positions are never used again and an old handle reports that its node is gone.  Every edge is held on
both sides: a node lists the value each of its inputs reads, and every output lists the inputs that
read it.

The declared parameters and results are the boundary of the graph: what is reachable from them
against the direction of the edges is what the graph computes.

This file holds the data and the queries.  A query takes handles, checks them, and reports a node
that is gone or a number of an input or output that is too large.
-/

namespace OpGraph

/-- One output of a node: the description found by the last inference and the inputs that read it. -/
structure Slot where
  desc : Desc
  targets : List Input
  deriving DecidableEq

/-- One operation with its edges. -/
structure Node where
  id : NodeId
  op : Op
  /-- The value that each input reads. -/
  inputs : List Output
  outputs : List Slot
  /-- The name given to the node, if it has been given one. -/
  givenName : Option String
  metadata : Metadata

namespace Node

/-- The kind of the node's operation. -/
def kind (n : Node) : Kind := n.op.kind

/-- The name that a node of the given kind and position has on its own. -/
def generatedName (kind : Kind) (id : NodeId) : String := kind.name ++ "_" ++ toString id

/-- The name that the node has on its own: its kind and its position. -/
def name (n : Node) : String := generatedName n.kind n.id

/-- The given name, or the node's own name if it was given none. -/
def friendlyName (n : Node) : String := n.givenName.getD n.name

/-- The node in error messages. -/
def description (n : Node) : String := s!"{n.name} ('{n.friendlyName}')"

/-- One output slot. -/
def slot (n : Node) (index : Nat) : Except GraphError Slot :=
  match n.outputs[index]? with
  | some s => .ok s
  | none => .error (.indexOutOfRange n.description .output index n.outputs.length)

/-- The value that one input reads. -/
def source (n : Node) (index : Nat) : Except GraphError Output :=
  match n.inputs[index]? with
  | some v => .ok v
  | none => .error (.indexOutOfRange n.description .input index n.inputs.length)

/-- The descriptions of all outputs. -/
def descs (n : Node) : List Desc := n.outputs.map (·.desc)

/-- The values of all outputs. -/
def values (n : Node) : List Output := (List.range n.outputs.length).map (⟨n.id, ·⟩)

/-- The nodes that produce the inputs, one for each input. -/
def sources (n : Node) : List NodeId := n.inputs.map (·.node)

/-- The nodes that produce the inputs, each once, in the order of the inputs. -/
def producers (n : Node) : List NodeId := n.sources.eraseDups

/-- The nodes that read an output, each once, in the order of the outputs and their targets. -/
def consumers (n : Node) : List NodeId :=
  (n.outputs.flatMap fun s => s.targets.map (·.node)).eraseDups

/-- No output of the node is read. -/
def isUnused (n : Node) : Bool := n.outputs.all (·.targets.isEmpty)

end Node

/-- An arena of nodes with its declared parameters and results. -/
structure Graph where
  name : String
  nodes : Array (Option Node) := #[]
  parameters : List NodeId := []
  results : List NodeId := []
  /-- How many nodes have been released so far. -/
  released : Nat := 0

namespace Graph

/-- The node at a position, unless it is gone. -/
def node? (g : Graph) (id : NodeId) : Option Node := g.nodes[id]?.join

/-- There is a live node at the position. -/
def contains (g : Graph) (id : NodeId) : Bool := (g.node? id).isSome

/-- The positions of the live nodes, in order. -/
def ids (g : Graph) : List NodeId := (List.range g.nodes.size).filter g.contains

/-- The live nodes, in the order of their positions. -/
def liveNodes (g : Graph) : List Node := g.ids.filterMap g.node?

/-- The number of live nodes. -/
def nodeCount (g : Graph) : Nat := g.ids.length

/-- The node at a position. -/
def node (g : Graph) (id : NodeId) : Except GraphError Node :=
  match g.node? id with
  | some n => .ok n
  | none => .error (.nodeNotFound id)

/-- The output slot of a value. -/
def slot (g : Graph) (v : Output) : Except GraphError Slot := do
  (← g.node v.node).slot v.index

/-- The handle names an output of a live node. -/
def hasOutput (g : Graph) (v : Output) : Bool :=
  (g.node? v.node).any (v.index < ·.outputs.length)

/-- The description of a value. -/
def desc (g : Graph) (v : Output) : Except GraphError Desc := do
  return (← g.slot v).desc

/-- The inputs that read a value. -/
def targets (g : Graph) (v : Output) : Except GraphError (List Input) := do
  return (← g.slot v).targets

/-- What an input of a live node reads. -/
def source (g : Graph) (i : Input) : Except GraphError Output := do
  (← g.node i.node).source i.index

/-- A checked handle for an output. -/
def output (g : Graph) (id : NodeId) (index : Nat) : Except GraphError Output := do
  let _ ← g.slot ⟨id, index⟩
  return ⟨id, index⟩

/-- A checked handle for an input. -/
def input (g : Graph) (id : NodeId) (index : Nat) : Except GraphError Input := do
  let _ ← g.source ⟨id, index⟩
  return ⟨id, index⟩

/-- The descriptions of the values that a node reads. -/
def inputDescs (g : Graph) (id : NodeId) : Except GraphError (List Desc) := do
  (← g.node id).inputs.mapM g.desc

/-- The number of inputs that read a value; an invalid handle has none. -/
def consumerCount (g : Graph) (v : Output) : Nat :=
  match g.targets v with
  | .ok ts => ts.length
  | .error _ => 0

/-- The operation of a node, unless it is gone. -/
def op? (g : Graph) (id : NodeId) : Option Op := (g.node? id).map (·.op)

/-- There is a live node of the given kind at the position. -/
def isKind (g : Graph) (id : NodeId) (kind : Kind) : Bool :=
  (g.op? id).any (·.kind = kind)

/-- The live nodes of a kind, in order. -/
def findKind (g : Graph) (kind : Kind) : List NodeId := g.ids.filter (g.isKind · kind)

/-- The node is a declared parameter. -/
def isParameter (g : Graph) (id : NodeId) : Bool := id ∈ g.parameters

/-- The node is a declared result. -/
def isResult (g : Graph) (id : NodeId) : Bool := id ∈ g.results

/-- The tensor of a value that a constant produces. -/
def constantValue? (g : Graph) (v : Output) : Option Tensor :=
  match g.op? v.node with
  | some (.constant t) => some t
  | _ => none

/-- The tensor that one input of a node reads, if it comes from a constant. -/
def constantInput? (g : Graph) (id : NodeId) (index : Nat) : Option Tensor :=
  ((g.node? id).bind (·.inputs[index]?)).bind g.constantValue?

/-- The value comes from a constant whose elements all equal `x`. -/
def isConstantFilledWith (g : Graph) (v : Output) (x : Float) : Bool :=
  (g.constantValue? v).any (·.allEqual x)

/-- The nodes that produce the inputs of a node; a node that is gone has none. -/
def sourcesOf (g : Graph) (id : NodeId) : List NodeId :=
  match g.node? id with
  | some n => n.sources
  | none => []

/-! ### Changes of single nodes -/

/-- Changes the node at a position, if there is one. -/
def modifyNode (g : Graph) (id : NodeId) (f : Node → Node) : Graph :=
  { g with nodes := g.nodes.modify id (Option.map f) }

/-- Changes the output slot of a value, if there is one. -/
def modifySlot (g : Graph) (v : Output) (f : Slot → Slot) : Graph :=
  g.modifyNode v.node fun n => { n with outputs := n.outputs.modify v.index f }

/-- Lists an input among the targets of a value. -/
def addTarget (g : Graph) (v : Output) (i : Input) : Graph :=
  g.modifySlot v fun s => { s with targets := s.targets ++ [i] }

/-- Strikes an input from the targets of a value. -/
def dropTarget (g : Graph) (v : Output) (i : Input) : Graph :=
  g.modifySlot v fun s => { s with targets := s.targets.filter (· ≠ i) }

@[simp] theorem size_nodes_modifyNode (g : Graph) (id : NodeId) (f : Node → Node) :
    (g.modifyNode id f).nodes.size = g.nodes.size := by
  simp [modifyNode]

theorem node?_modifyNode (g : Graph) (id j : NodeId) (f : Node → Node) :
    (g.modifyNode id f).node? j = if id = j then (g.node? j).map f else g.node? j := by
  simp only [node?, modifyNode, Array.getElem?_modify]
  split
  · cases g.nodes[j]? <;> rfl
  · rfl

@[simp] theorem contains_modifyNode (g : Graph) (id j : NodeId) (f : Node → Node) :
    (g.modifyNode id f).contains j = g.contains j := by
  simp only [contains, node?_modifyNode]
  split <;> simp

@[simp] theorem ids_modifyNode (g : Graph) (id : NodeId) (f : Node → Node) :
    (g.modifyNode id f).ids = g.ids := by
  simp only [ids, size_nodes_modifyNode]
  congr 1
  funext j
  exact contains_modifyNode g id j f

@[simp] theorem ids_dropTarget (g : Graph) (v : Output) (i : Input) :
    (g.dropTarget v i).ids = g.ids :=
  ids_modifyNode ..

theorem contains_iff_mem_ids {g : Graph} {id : NodeId} : g.contains id ↔ id ∈ g.ids := by
  simp only [ids, List.mem_filter, List.mem_range]
  refine ⟨fun h => ⟨?_, h⟩, fun h => h.2⟩
  rcases Nat.lt_or_ge id g.nodes.size with h' | h'
  · exact h'
  · simp [contains, node?, h'] at h

end Graph

end OpGraph
