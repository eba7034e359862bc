import OpGraph.Graph.Release
import OpGraph.Pattern.Match
import OpGraph.Rule.Session

/-!
# Rules

A rule is a pattern with an action.  Where the pattern matches, the action may change the graph; it
answers whether it did.
-/

namespace OpGraph

/-- How a group of rules goes over a graph. -/
structure TraversalConfig where
  /-- Go over the graph again until nothing changes. -/
  runToFixpoint : Bool := true
  /-- How often to go over the graph at most; once at least. -/
  maxIterations : Nat := 100
  /-- After the first change, bring the description of each node up to date before it is looked at. -/
  shapeInference : Bool := true
  deriving DecidableEq, Repr

/-- Goes over the graph a single time. -/
def TraversalConfig.once : TraversalConfig := { runToFixpoint := false }

/-- A named pattern with the action for its matches.  The configuration counts when the rule runs on
its own. -/
structure Rule (σ : Type) where
  name : String
  pattern : Pattern
  action : Match → Action σ Bool
  config : TraversalConfig := {}

namespace Rule

variable {σ : Type}

/-- A rule whose action edits the graph and remembers nothing. -/
def ofEdit (name : String) (pattern : Pattern) (action : Match → Edit Bool) : Rule σ :=
  { name, pattern, action := fun m => .edit (action m) }

/-- Tries the rule at a node.  If the action reports a change, the matched nodes that nothing reads any
more are released at once, so that later predicates see exact numbers of consumers. -/
def applyAt (r : Rule σ) (id : NodeId) : Action σ Bool := do
  match r.pattern.matchNode? (← .graph) id with
  | none => return false
  | some m =>
    if ← r.action m then
      let _ ← Action.edit (Edit.release m.visited)
      return true
    else return false

end Rule

end OpGraph
