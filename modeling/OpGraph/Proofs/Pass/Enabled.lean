import OpGraph.Pass.Manager
import OpGraph.Proofs.Rule.Traversal

/-!
# The enabled part of a manager

A manager looks at its filter in two places: before it runs a pass, and wherever a rule is offered a node.
So it does what it would do if the filter were empty and all that is switched off had never been there
(`Manager.run_enabledPart`).
-/

namespace OpGraph

variable {σ : Type}

/-- The rules that are not switched off. -/
def PassFilter.enabled (f : PassFilter) (rules : List (Rule σ)) : List (Rule σ) :=
  rules.filter fun r => !f.isDisabled r.name

/-- A pass without the rules of the group that are switched off. -/
def Pass.enabledPart (f : PassFilter) : Pass σ → Pass σ
  | group name rules config => group name (f.enabled rules) config
  | pass => pass

/-- The passes that are not switched off, without the rules that are. -/
def PassFilter.enabledPasses (f : PassFilter) (passes : List (Pass σ)) : List (Pass σ) :=
  (passes.filter fun p => !f.isDisabled p.name).map (·.enabledPart f)

/-- A manager with nothing switched off, without the passes and the rules that have been switched off. -/
def Manager.enabledPart (m : Manager σ) : Manager σ where
  passes := m.filter.enabledPasses m.passes
  config := m.config

theorem not_isDisabled_empty (name : String) : ¬ ({} : PassFilter).isDisabled name := by
  simp [PassFilter.isDisabled]

namespace PassFilter

variable {f : PassFilter}

theorem enabled_cons_of_disabled {r : Rule σ} {rules : List (Rule σ)} (hr : f.isDisabled r.name) :
    f.enabled (r :: rules) = f.enabled rules :=
  List.filter_cons_of_neg (by simpa using hr)

theorem enabled_cons {r : Rule σ} {rules : List (Rule σ)} (hr : ¬ f.isDisabled r.name) :
    f.enabled (r :: rules) = r :: f.enabled rules :=
  List.filter_cons_of_pos (by simpa using hr)

theorem enabledPasses_cons_of_disabled {p : Pass σ} {passes : List (Pass σ)}
    (hp : f.isDisabled p.name) : f.enabledPasses (p :: passes) = f.enabledPasses passes :=
  congrArg (List.map _) (List.filter_cons_of_neg (by simpa using hp))

theorem enabledPasses_cons {p : Pass σ} {passes : List (Pass σ)} (hp : ¬ f.isDisabled p.name) :
    f.enabledPasses (p :: passes) = p.enabledPart f :: f.enabledPasses passes :=
  congrArg (List.map _) (List.filter_cons_of_pos (by simpa using hp))

end PassFilter

/-- Where rules are offered a node, the ones that are switched off might as well not be there. -/
theorem offer_enabled (f : PassFilter) (id : NodeId) (rules : List (Rule σ)) :
    offer {} id (f.enabled rules) = offer f id rules := by
  induction rules with
  | nil => rfl
  | cons r rules ih =>
    by_cases hr : f.isDisabled r.name
    · rw [PassFilter.enabled_cons_of_disabled hr, ih, offer, if_pos hr]
    · rw [PassFilter.enabled_cons hr, offer, offer, if_neg hr,
        if_neg (not_isDisabled_empty r.name), ih]

namespace Pass

theorem name_enabledPart (f : PassFilter) (p : Pass σ) : (p.enabledPart f).name = p.name := by
  cases p <;> rfl

/-- A pass that is not switched off runs as its enabled part. -/
theorem run_enabledPart {f : PassFilter} {p : Pass σ} (hp : ¬ f.isDisabled p.name) :
    (p.enabledPart f).run {} = p.run f := by
  cases p with
  | rule r =>
    have hself : f.enabled [r] = [r] := PassFilter.enabled_cons hp
    have hoffer (id : NodeId) : offer {} id [r] = offer f id [r] := by
      rw [← offer_enabled f, hself]
    exact runRules_congr hoffer r.config
  | group name rules config => exact runRules_congr (fun id => offer_enabled f id rules) config
  | whole name action => rfl

end Pass

namespace Manager

theorem runPass_enabledPart (m : Manager σ) {p : Pass σ} (hp : ¬ m.filter.isDisabled p.name) :
    m.enabledPart.runPass (p.enabledPart m.filter) = m.runPass p := by
  rw [runPass, runPass]
  show (p.enabledPart m.filter).run {} >>= _ = _
  rw [Pass.run_enabledPart hp]
  rfl

theorem runFrom_enabledPart (m : Manager σ) (released : Nat) (passes : List (Pass σ))
    (stats : RunStats) (s : Session σ) :
    m.enabledPart.runFrom released (m.filter.enabledPasses passes) stats s =
      m.runFrom released passes stats s := by
  induction passes generalizing stats s with
  | nil => rfl
  | cons p passes ih =>
    by_cases hp : m.filter.isDisabled p.name
    · rw [PassFilter.enabledPasses_cons_of_disabled hp, ih, runFrom, if_pos hp]
    have hempty : ¬ m.enabledPart.filter.isDisabled (p.enabledPart m.filter).name :=
      not_isDisabled_empty _
    rw [PassFilter.enabledPasses_cons hp, runFrom, runFrom, if_neg hp, if_neg hempty,
      m.runPass_enabledPart hp, Pass.name_enabledPart]
    cases m.runPass p s with
    | ok changed s' => exact ih _ s'
    | error e s' => rfl

/-- **A manager runs as its enabled part.** -/
theorem run_enabledPart (m : Manager σ) (s : Session σ) : m.enabledPart.run s = m.run s :=
  m.runFrom_enabledPart s.graph.released m.passes {} s

end Manager

end OpGraph
