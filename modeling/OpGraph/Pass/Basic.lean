import OpGraph.Rule.Traversal

/-!
# Passes

A pass goes over the whole graph: a rule on its own, a group of rules, or an action of its own.
-/

namespace OpGraph

/-- A step of an optimization. -/
inductive Pass (σ : Type) where
  | rule (rule : Rule σ)
  | group (name : String) (rules : List (Rule σ)) (config : TraversalConfig)
  /-- An action on the whole graph that does not look at the filter. -/
  | whole (name : String) (action : Action σ Bool)

namespace Pass

variable {σ : Type}

/-- The name that selects the pass. -/
def name : Pass σ → String
  | rule r => r.name
  | group name _ _ => name
  | whole name _ => name

/-- Runs the pass once and answers whether it changed the graph.  A rule on its own obeys the filter
like the rules of a group. -/
def run (filter : PassFilter) : Pass σ → Action σ Bool
  | rule r => runRules [r] r.config filter
  | group _ rules config => runRules rules config filter
  | whole _ action => action

/-- Brings all descriptions up to date; it never counts as a change. -/
def validate : Pass σ :=
  whole "Validate" do
    Action.edit Edit.validate
    return false

end Pass

end OpGraph
