import OpGraph.Graph.Edit

/-!
# Sessions

Rules and passes run in a session: the graph together with a memory that they may use to remember
earlier calls.  `Action` is the type of actions on a session; every edit of the graph is one, through
`Action.edit`.
-/

namespace OpGraph

/-- A graph under transformation, and what the rules remember. -/
structure Session (σ : Type) where
  graph : Graph
  memory : σ

/-- An action on a session that may fail and keeps what it has done until then. -/
abbrev Action (σ : Type) := EStateM GraphError (Session σ)

namespace Action

variable {σ α : Type}

/-- Edits the graph of the session and leaves the memory alone. -/
def edit (e : Edit α) : Action σ α := fun s =>
  match e s.graph with
  | .ok a g => .ok a { s with graph := g }
  | .error err g => .error err { s with graph := g }

/-- The graph of the session. -/
def graph : Action σ Graph := fun s => .ok s.graph s

/-- Consults and updates the memory and leaves the graph alone. -/
def remember (f : σ → α × σ) : Action σ α := fun s =>
  let (a, memory) := f s.memory
  .ok a { s with memory }

end Action

end OpGraph
