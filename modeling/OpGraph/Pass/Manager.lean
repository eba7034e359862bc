import OpGraph.Pass.Basic

/-!
# Managers

A manager runs passes in order.  After a pass that changed the graph it releases what the boundary
does not hang on and brings the descriptions up to date, and it does the latter once more at the end;
all of this can be switched off.
-/

namespace OpGraph

/-- What the manager does beside running passes. -/
structure ManagerConfig where
  perPassValidation : Bool := true
  collectGarbage : Bool := true
  finalValidation : Bool := true
  deriving DecidableEq, Repr

/-- What happened in a run of the manager. -/
structure RunStats where
  passesRun : Nat := 0
  passesChanged : Nat := 0
  nodesReleased : Nat := 0
  /-- The name of each pass that was run, and whether it changed the graph. -/
  perPass : List (String × Bool) := []
  deriving DecidableEq, Repr

/-- Counts one more pass. -/
def RunStats.record (s : RunStats) (name : String) (changed : Bool) : RunStats :=
  { s with
    passesRun := s.passesRun + 1
    passesChanged := if changed then s.passesChanged + 1 else s.passesChanged
    perPass := s.perPass ++ [(name, changed)] }

/-- The result of a run of the manager: whether anything changed or how it failed, and what happened
until then. -/
@[ext]
structure RunReport where
  outcome : Except GraphError Bool
  stats : RunStats

/-- Passes in the order they are run. -/
structure Manager (σ : Type) where
  passes : List (Pass σ) := []
  config : ManagerConfig := {}
  filter : PassFilter := {}

namespace Manager

variable {σ : Type}

/-- What follows a pass that changed the graph. -/
def afterChange (config : ManagerConfig) : Edit Unit := do
  if config.collectGarbage then
    let _ ← Edit.collectGarbage
  if config.perPassValidation then
    Edit.validate

/-- Runs one pass and what follows it. -/
def runPass (m : Manager σ) (p : Pass σ) : Action σ Bool := do
  let changed ← p.run m.filter
  if changed then
    Action.edit (afterChange m.config)
  return changed

/-- The end of a run: the last validation, and the number of nodes released since `released`. -/
def finish (m : Manager σ) (released : Nat) (stats : RunStats) (s : Session σ) :
    RunReport × Session σ :=
  let last : Action σ Unit := if m.config.finalValidation then .edit Edit.validate else pure ()
  match last s with
  | .ok _ s =>
    (⟨.ok (stats.passesChanged ≠ 0), { stats with nodesReleased := s.graph.released - released }⟩, s)
  | .error e s => (⟨.error e, stats⟩, s)

/-- Runs the enabled ones of some passes in order.  The first error ends the run, with the name of the
pass it comes from. -/
def runFrom (m : Manager σ) (released : Nat) :
    List (Pass σ) → RunStats → Session σ → RunReport × Session σ
  | [], stats, s => m.finish released stats s
  | p :: passes, stats, s =>
    if m.filter.isDisabled p.name then m.runFrom released passes stats s
    else
      match m.runPass p s with
      | .ok changed s => m.runFrom released passes (stats.record p.name changed) s
      | .error e s => (⟨.error (.passFailed p.name e), stats⟩, s)

/-- Runs the enabled passes on a session. -/
def run (m : Manager σ) (s : Session σ) : RunReport × Session σ :=
  m.runFrom s.graph.released m.passes {} s

end Manager

end OpGraph
