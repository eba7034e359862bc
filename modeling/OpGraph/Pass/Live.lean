import OpGraph.Pass.Manager

/-!
# Managers at work

A manager owns its passes and what their actions remember, and it is used again and again, with names
that are switched off and on in between.  A pass keeps the filter that it has been handed last.  The
manager hands over its own filter right before it runs a pass, so what a pass has kept from an earlier
run does not matter (`LiveManager.report_eq`, in the theory).
-/

namespace OpGraph

variable {σ : Type}

/-- A pass with the filter that it has been handed last. -/
structure LivePass (σ : Type) where
  pass : Pass σ
  filter : PassFilter := {}

namespace LivePass

/-- Hands a filter to the pass.  An action on the whole graph has no use for it. -/
def receive (filter : PassFilter) (p : LivePass σ) : LivePass σ :=
  match p.pass with
  | .whole _ _ => p
  | _ => { p with filter }

/-- Runs the pass with the filter that it keeps.  A rule on its own is without a filter while it runs; it
gets its filter back afterwards, even if the run has failed. -/
def run (p : LivePass σ) (s : Session σ) :
    EStateM.Result GraphError (Session σ) Bool × LivePass σ :=
  match p.pass with
  | .rule r =>
    let (filter, p) := (p.filter, { p with filter := {} })
    let result := runRules [r] r.config filter s
    (result, { p with filter })
  | pass => (pass.run p.filter s, p)

/-- Runs the pass and what follows a change. -/
def runPass (config : ManagerConfig) (p : LivePass σ) (s : Session σ) :
    EStateM.Result GraphError (Session σ) Bool × LivePass σ :=
  let (result, p) := p.run s
  match result with
  | .ok true s => ((Action.edit (Manager.afterChange config) >>= fun _ => return true) s, p)
  | result => (result, p)

end LivePass

/-- A manager with its passes, what their actions remember, and what happened in the last run. -/
structure LiveManager (σ : Type) where
  passes : List (LivePass σ) := []
  config : ManagerConfig := {}
  filter : PassFilter := {}
  stats : RunStats := {}
  memory : σ

/-- What is done with a manager. -/
inductive Command where
  | disable (name : String)
  | enable (name : String)
  | run (g : Graph)

/-- What becomes of a filter. -/
def PassFilter.follow (f : PassFilter) : Command → PassFilter
  | .disable name => f.disable name
  | .enable name => f.enable name
  | .run _ => f

namespace LiveManager

/-- A new manager of some passes, with nothing switched off. -/
def start (passes : List (Pass σ)) (config : ManagerConfig) (memory : σ) : LiveManager σ where
  passes := passes.map fun pass => { pass }
  config := config
  memory := memory

/-- The passes, without what they keep. -/
def registered (m : LiveManager σ) : List (Pass σ) := m.passes.map (·.pass)

/-- Runs the enabled ones of some passes in order, each with the filter of the manager. -/
def runFrom (config : ManagerConfig) (filter : PassFilter) (released : Nat) :
    List (LivePass σ) → RunStats → Session σ → RunReport × List (LivePass σ) × Session σ
  | [], stats, s =>
    let (report, s) := Manager.finish { config } released stats s
    (report, [], s)
  | p :: passes, stats, s =>
    if filter.isDisabled p.pass.name then
      let (report, passes, s) := runFrom config filter released passes stats s
      (report, p :: passes, s)
    else
      let (result, p) := (p.receive filter).runPass config s
      match result with
      | .ok changed s =>
        let (report, passes, s) :=
          runFrom config filter released passes (stats.record p.pass.name changed) s
        (report, p :: passes, s)
      | .error e s => (⟨.error (.passFailed p.pass.name e), stats⟩, p :: passes, s)

/-- Runs the manager on a graph.  The manager that is left has the statistics of the run. -/
def run (m : LiveManager σ) (g : Graph) : Except GraphError Bool × Graph × LiveManager σ :=
  let (report, passes, s) :=
    runFrom m.config m.filter g.released m.passes {} ⟨g, m.memory⟩
  (report.outcome, s.graph, { m with passes, stats := report.stats, memory := s.memory })

/-- What can be seen of a run: the result and the statistics, and the session at the end. -/
def report (m : LiveManager σ) (g : Graph) : RunReport × Session σ :=
  let (outcome, g, m) := m.run g
  (⟨outcome, m.stats⟩, ⟨g, m.memory⟩)

/-- What becomes of a manager. -/
def follow (m : LiveManager σ) : Command → LiveManager σ
  | .disable name => { m with filter := m.filter.disable name }
  | .enable name => { m with filter := m.filter.enable name }
  | .run g => (m.run g).2.2

end LiveManager

end OpGraph
