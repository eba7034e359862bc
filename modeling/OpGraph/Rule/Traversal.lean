import OpGraph.Graph.Infer
import OpGraph.Pass.Filter
import OpGraph.Rule.Basic

/-!
# Traversals

A group of rules goes over the nodes of a graph in the order they have at the start, producers first.
Each node that is still live is offered to the rules in turn, and the first one that reports a change
wins the node.  `runRules` goes over the graph once, or again and again until nothing changes.
-/

namespace OpGraph

variable {σ : Type}

/-- Offers a node to the enabled rules in order, up to the first one that reports a change. -/
def offer (filter : PassFilter) (id : NodeId) : List (Rule σ) → Action σ Bool
  | [] => return false
  | r :: rules => do
    if filter.isDisabled r.name then offer filter id rules
    else if ← r.applyAt id then return true
    else offer filter id rules

/-- Offers the nodes that are still live to the rules.  With inference switched on, every node that
comes after the first change is brought up to date before. -/
def walk (rules : List (Rule σ)) (filter : PassFilter) (inference : Bool) :
    List NodeId → Bool → Action σ Bool
  | [], changed => return changed
  | id :: ids, changed => do
    if (← .graph).contains id then
      if changed && inference then
        let _ ← Action.edit (Edit.revalidate id)
      let hit ← offer filter id rules
      walk rules filter inference ids (changed || hit)
    else walk rules filter inference ids changed

/-- Goes over the graph once. -/
def traverse (rules : List (Rule σ)) (filter : PassFilter) (inference : Bool) :
    Action σ Bool := do
  walk rules filter inference (← .graph).order false

/-- Repeats an action that answers whether it changed anything, up to `n` times, until it did not. -/
def iterate (step : Action σ Bool) : Nat → Bool → Action σ Bool
  | 0, changed => return changed
  | n + 1, changed => do
    if ← step then iterate step n true else return changed

/-- Runs a group of rules on the graph and answers whether anything changed. -/
def runRules (rules : List (Rule σ)) (config : TraversalConfig) (filter : PassFilter) :
    Action σ Bool :=
  let step := traverse rules filter config.shapeInference
  if config.runToFixpoint then iterate step (max 1 config.maxIterations) false else step

end OpGraph
