import OpGraph.Optimize.Folding
import OpGraph.Optimize.Identity
import OpGraph.Optimize.MultiplyChain
import OpGraph.Optimize.Negation
import OpGraph.Pass.Manager

/-!
# The standard pipeline

Negations are turned into multiplications, constants are folded, multiplications are fused, and
operations without effect are bypassed, in this order: decomposition exposes new multiplications, and
folding makes the constants that fusion and elimination look for.
-/

namespace OpGraph

/-- Which of the standard passes run, and what the manager does beside them. -/
structure Pipeline where
  decompose : Bool := true
  constantFold : Bool := true
  fuse : Bool := true
  eliminate : Bool := true
  manager : ManagerConfig := {}
  deriving DecidableEq, Repr

namespace Pipeline

/-- Elimination alone. -/
def eliminateOnly : Pipeline := { decompose := false, constantFold := false, fuse := false }

/-- Fusion alone. -/
def fuseOnly : Pipeline := { decompose := false, constantFold := false, eliminate := false }

variable {σ : Type}

/-- The passes that run, in order. -/
def passes (p : Pipeline) : List (Pass σ) :=
  (if p.decompose then [.rule Negation.rule] else []) ++
  (if p.constantFold then [.constantFolding] else []) ++
  (if p.fuse then [.rule MultiplyChain.rule] else []) ++
  (if p.eliminate then [Identity.pass] else [])

/-- The manager of the passes that run. -/
def build (p : Pipeline) : Manager σ := { passes := p.passes, config := p.manager }

/-- Runs the pipeline on a graph and returns what happened. -/
def run (p : Pipeline) : Edit RunStats := fun g =>
  let (report, s) := (p.build : Manager Unit).run ⟨g, ()⟩
  match report.outcome with
  | .ok _ => .ok report.stats s.graph
  | .error e => .error e s.graph

end Pipeline

end OpGraph
