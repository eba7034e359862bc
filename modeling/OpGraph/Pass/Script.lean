import OpGraph.Graph.Bypass
import OpGraph.Graph.Fuse
import OpGraph.Pass.Basic

/-!
# Scripts

The action of a rule can be written down as data: a list of steps that are done in order.  A step
refers to values of the match, to what the matched node reads, and to nodes that the run has added.
A step that refers to something that is not there declines: the run ends and reports no change, and
so does a step that finds the graph unsuited.  The end of the list reports a change.

Every script has a counter of its own in the memory of the session, so that it can stop after some
number of calls.
-/

namespace OpGraph

/-- A reference to a value. -/
inductive ValueRef where
  | value (v : Output)
  /-- The value bound to a pattern node. -/
  | bound (i : Nat)
  /-- The value that matched the root of the pattern. -/
  | root
  /-- What an input of the matched node reads. -/
  | source (index : Nat)
  /-- An output of a node that this run has added. -/
  | added (k index : Nat)
  deriving DecidableEq

/-- A reference to a node. -/
inductive NodeRef where
  | node (id : NodeId)
  /-- The node that produces a value. -/
  | producer (v : ValueRef)
  deriving DecidableEq

/-- One step of a script. -/
inductive Step where
  /-- Ends the run with the given answer. -/
  | finish (changed : Bool)
  /-- Declines if the script has been called `n` times before. -/
  | limit (n : Nat)
  | fail (error : GraphError)
  /-- An operation that could not be made fails when the step is reached. -/
  | add (op : Except GraphError Op) (inputs : List ValueRef)
  | clone (node : NodeRef) (inputs : List ValueRef)
  | replaceNode (old new : NodeRef)
  | replaceNodeWith (old : NodeRef) (values : List ValueRef)
  | replaceOutput (old new : ValueRef)
  | setName (node : NodeRef) (name : String)
  | setMetadata (node : NodeRef) (key : String) (value : MetaValue)
  | copyMetadata (sources targets : List NodeRef)
  | fuse (group : List NodeRef) (root fused : NodeRef)
  /-- Declines unless the value can be absorbed by what reads it. -/
  | requireCanFuse (value : ValueRef)
  /-- Declines if the node cannot be bypassed. -/
  | bypass (node : NodeRef) (index : Nat)
  /-- Declines if the node is not a parameter. -/
  | setParameterShape (node : NodeRef) (shape : PartialShape)

namespace Script

/-- What the steps of a run can refer to. -/
structure Context where
  found : Option Match
  /-- How often the script has been called before. -/
  calls : Nat
  /-- The nodes added by this run, in order. -/
  added : List NodeId := []

/-- A step that may decline. -/
abbrev Attempt := OptionT Edit

/-- Declines if there is nothing. -/
def require {α : Type} (a : Option α) : Attempt α := OptionT.mk (pure a)

/-- The value a reference stands for. -/
def Context.value (c : Context) : ValueRef → Attempt Output
  | .value v => return v
  | .bound i => require (c.found.bind (·.get? i))
  | .root => require (c.found.map (·.root))
  | .source index => do
    let m ← require c.found
    (Edit.query (·.source ⟨m.root.node, index⟩) : Edit Output)
  | .added k index => do
    let id ← require c.added[k]?
    return ⟨id, index⟩

/-- The node a reference stands for. -/
def Context.node (c : Context) : NodeRef → Attempt NodeId
  | .node id => return id
  | .producer v => return (← c.value v).node

/-- Declines unless the answer is yes. -/
def accept (e : Edit Bool) : Attempt Unit := do
  if ← (e : Attempt Bool) then return else failure

/-- Does one step and returns what the next steps can refer to. -/
def perform (c : Context) : Step → Attempt Context
  | .finish _ => return c
  | .limit n => do
    accept (pure (c.calls < n))
    return c
  | .fail e => (throw e : Edit Context)
  | .add op inputs => do
    let inputs ← inputs.mapM c.value
    let op ← (Edit.query fun _ => op : Edit Op)
    let id ← (Edit.addNode op inputs : Edit NodeId)
    return { c with added := c.added ++ [id] }
  | .clone node inputs => do
    let node ← c.node node
    let inputs ← inputs.mapM c.value
    let id ← (Edit.cloneNode node inputs : Edit NodeId)
    return { c with added := c.added ++ [id] }
  | .replaceNode old new => do
    let old ← c.node old
    let new ← c.node new
    Edit.replaceNode old new
    return c
  | .replaceNodeWith old values => do
    let old ← c.node old
    let values ← values.mapM c.value
    Edit.replaceNodeWith old values
    return c
  | .replaceOutput old new => do
    let old ← c.value old
    let new ← c.value new
    Edit.replaceOutput old new
    return c
  | .setName node name => do
    Edit.setName (← c.node node) name
    return c
  | .setMetadata node key value => do
    Edit.setMetadata (← c.node node) key value
    return c
  | .copyMetadata sources targets => do
    let sources ← sources.mapM c.node
    let targets ← targets.mapM c.node
    Edit.copyMetadata sources targets
    return c
  | .fuse group root fused => do
    let group ← group.mapM c.node
    let root ← c.node root
    let fused ← c.node fused
    Edit.fuse group root fused
    return c
  | .requireCanFuse value => do
    let v ← c.value value
    accept (Edit.query fun g => .ok (g.canFuse v))
    return c
  | .bypass node index => do
    accept (Edit.bypass (← c.node node) index)
    return c
  | .setParameterShape node shape => do
    accept (Edit.updateOp (← c.node node) fun
      | .parameter type _ => some (.parameter type shape)
      | _ => none)
    return c

/-- Does the steps in order and answers whether the graph changed. -/
def run (c : Context) : List Step → Edit Bool
  | [] => return true
  | .finish changed :: _ => return changed
  | s :: steps => do
    match ← (perform c s).run with
    | some c => run c steps
    | none => return false

end Script

/-- How often each script has been called. -/
abbrev CallCounts := Array Nat

namespace Script

/-- Counts a call of the script with the given number and returns how many there were before. -/
def countCall (script : Nat) : Action CallCounts Nat :=
  .remember fun counts => (counts.getD script 0, counts.modify script (· + 1))

/-- Runs the script with the given number after counting the call. -/
def call (script : Nat) (steps : List Step) (found : Option Match) : Action CallCounts Bool := do
  let calls ← countCall script
  Action.edit (run { found, calls } steps)

/-- A rule whose action is a script. -/
def rule (script : Nat) (name : String) (pattern : Pattern) (steps : List Step) : Rule CallCounts :=
  { name, pattern, action := fun m => call script steps (some m) }

/-- A pass that runs a script once on the whole graph. -/
def pass (script : Nat) (name : String) (steps : List Step) : Pass CallCounts :=
  .whole name (call script steps none)

end Script

end OpGraph
