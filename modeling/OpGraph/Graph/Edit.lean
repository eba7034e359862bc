import OpGraph.Graph.Basic

/-!
# Edits

`Edit` is the type of actions that change a graph and may fail.  An action that fails leaves the graph
as far as it got, so that an edit made of several steps shows how many of them were done.

The only edit of an edge is `Edit.connect`, which moves one input to another value and keeps both
sides of the edge in step.
-/

namespace OpGraph

/-- An action on a graph that may fail and keeps what it has done until then. -/
abbrev Edit := EStateM GraphError Graph

namespace Graph

/-- Puts a node at the end of the arena and lists its inputs among the targets of what they read.
Parameters and results join the boundary. -/
def insert (g : Graph) (op : Op) (inputs : List Output) (descs : List Desc) : Graph :=
  let id := g.nodes.size
  let linked := inputs.zipIdx.foldl (fun g (v, i) => g.addTarget v ⟨id, i⟩) g
  { linked with
    nodes := linked.nodes.push (some
      { id, op, inputs, outputs := descs.map (⟨·, []⟩), givenName := none, metadata := ∅ })
    parameters := if op.kind = .parameter then g.parameters ++ [id] else g.parameters
    results := if op.kind = .result then g.results ++ [id] else g.results }

/-- Moves an input from the value it reads to another one. -/
def rewire (g : Graph) (i : Input) (old new : Output) : Graph :=
  ((g.dropTarget old i).modifyNode i.node fun n => { n with inputs := n.inputs.set i.index new })
    |>.addTarget new i

/-- The descriptions of the outputs that a new node would have. -/
def inferNew (g : Graph) (op : Op) (inputs : List Output) : Except GraphError (List Desc) := do
  let descs ← inputs.mapM g.desc
  match op.infer descs with
  | .ok outs => return outs
  | .error e =>
    let name := Node.generatedName op.kind g.nodes.size
    throw (e.at s!"{name} ('{name}')")

end Graph

namespace Edit

/-- Asks the graph. -/
def query {α : Type} (f : Graph → Except GraphError α) : Edit α := fun g =>
  match f g with
  | .ok a => .ok a g
  | .error e => .error e g

/-- Adds a node that reads the given values; its position is the size of the arena. -/
def addNode (op : Op) (inputs : List Output) : Edit NodeId := do
  let descs ← query (·.inferNew op inputs)
  modifyGet fun g => (g.nodes.size, g.insert op inputs descs)

/-- Adds a node and returns its first output. -/
def addOp (op : Op) (inputs : List Output) : Edit Output := do
  let id ← addNode op inputs
  query (·.output id 0)

/-- Adds a constant. -/
def addConstant (value : Tensor) : Edit Output := addOp (.constant value) []

/-- Adds a node with the operation of another one that reads the given values. -/
def cloneNode (id : NodeId) (inputs : List Output) : Edit NodeId := do
  let n ← query (·.node id)
  addNode n.op inputs

/-- Makes an input read another value.  A node cannot be connected to its own output. -/
def connect (i : Input) (new : Output) : Edit Unit := do
  let old ← query (·.source i)
  let _ ← query (·.slot new)
  if new.node = i.node then
    let n ← query (·.node i.node)
    throw (.structuralViolation s!"cannot connect {n.description} to its own output {new.index}")
  if old ≠ new then
    modify (·.rewire i old new)

/-- Renames the graph. -/
def rename (name : String) : Edit Unit := modify ({ · with name })

/-- Changes a live node. -/
def updateNode (id : NodeId) (f : Node → Node) : Edit Unit := do
  let _ ← query (·.node id)
  modify (·.modifyNode id f)

/-- Gives a node a name. -/
def setName (id : NodeId) (name : String) : Edit Unit :=
  updateNode id fun n => { n with givenName := some name }

/-- Inserts a value into the metadata of a node. -/
def setMetadata (id : NodeId) (key : String) (value : MetaValue) : Edit Unit :=
  updateNode id fun n => { n with metadata := n.metadata.insert key value }

/-- Changes the operation of a node if `f` accepts it, and says whether it did.  The descriptions of
the outputs stay as they are until the next inference. -/
def updateOp (id : NodeId) (f : Op → Option Op) : Edit Bool := do
  match ((← get).op? id).bind f with
  | some op =>
    modify (·.modifyNode id fun n => { n with op })
    return true
  | none => return false

end Edit

end OpGraph
