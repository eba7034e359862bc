import OpGraph.Pass.Live

/-!
# What a manager at work does

A manager at work reports what `Manager.run` reports for its passes and its filter
(`LiveManager.report_eq`).  The filters that its passes keep do not matter, because a pass is handed the
filter of the manager before it runs (`LivePass.runPass_receive`).  After any commands a manager has the
passes that it had, and a filter that has followed the commands (`LiveManager.toManager_after`).
-/

namespace OpGraph

variable {σ : Type}

theorem Manager.runPass_eq (m : Manager σ) (p : Pass σ) (s : Session σ) :
    m.runPass p s = match p.run m.filter s with
      | .ok true s => (Action.edit (afterChange m.config) >>= fun _ => return true) s
      | result => result := by
  show EStateM.bind (p.run m.filter) _ s = _
  rw [EStateM.bind]
  cases p.run m.filter s with
  | error e s => rfl
  | ok changed s => cases changed <;> rfl

namespace LivePass

@[simp] theorem pass_receive (filter : PassFilter) (p : LivePass σ) :
    (p.receive filter).pass = p.pass := by
  unfold receive
  split <;> rfl

/-- A pass runs with the filter that it has just received, and keeps it. -/
theorem run_receive (filter : PassFilter) (p : LivePass σ) (s : Session σ) :
    (p.receive filter).run s = (p.pass.run filter s, p.receive filter) := by
  obtain ⟨pass, kept⟩ := p
  cases pass <;> rfl

theorem runPass_receive (m : Manager σ) (p : LivePass σ) (s : Session σ) :
    (p.receive m.filter).runPass m.config s = (m.runPass p.pass s, p.receive m.filter) := by
  rw [runPass, run_receive, Manager.runPass_eq]
  cases p.pass.run m.filter s with
  | error e s => rfl
  | ok changed s => cases changed <;> rfl

end LivePass

namespace LiveManager

/-- The same passes, without what has been kept from earlier runs. -/
def toManager (m : LiveManager σ) : Manager σ where
  passes := m.registered
  config := m.config
  filter := m.filter

/-- The passes at work report what the passes report, and they stay the same passes. -/
theorem runFrom_eq (m : Manager σ) (released : Nat) (passes : List (LivePass σ)) (stats : RunStats)
    (s : Session σ) : ∃ passes', passes'.map LivePass.pass = passes.map LivePass.pass ∧
      runFrom m.config m.filter released passes stats s =
        ((m.runFrom released (passes.map LivePass.pass) stats s).1, passes',
          (m.runFrom released (passes.map LivePass.pass) stats s).2) := by
  induction passes generalizing stats s with
  | nil => exact ⟨[], rfl, rfl⟩
  | cons p passes ih =>
    rw [runFrom, List.map_cons, Manager.runFrom]
    split
    · obtain ⟨passes', hpasses, hrun⟩ := ih stats s
      exact ⟨p :: passes', by rw [List.map_cons, hpasses], by rw [hrun]⟩
    rw [LivePass.runPass_receive]
    cases hpass : m.runPass p.pass s with
    | error e s =>
      refine ⟨p.receive m.filter :: passes, by simp, ?_⟩
      dsimp only
      rw [LivePass.pass_receive]
    | ok changed s =>
      obtain ⟨passes', hpasses, hrun⟩ := ih (stats.record p.pass.name changed) s
      refine ⟨p.receive m.filter :: passes', by simp [hpasses], ?_⟩
      dsimp only
      rw [LivePass.pass_receive, hrun]

/-- What a run leaves of a manager, apart from the statistics and the memory. -/
theorem run_eq (m : LiveManager σ) (g : Graph) :
    ∃ passes, passes.map LivePass.pass = m.registered ∧
      m.run g = ((m.toManager.run ⟨g, m.memory⟩).1.outcome, (m.toManager.run ⟨g, m.memory⟩).2.graph,
        { m with
          passes
          stats := (m.toManager.run ⟨g, m.memory⟩).1.stats
          memory := (m.toManager.run ⟨g, m.memory⟩).2.memory }) := by
  obtain ⟨passes, hpasses, hrun⟩ := runFrom_eq m.toManager g.released m.passes {} ⟨g, m.memory⟩
  exact ⟨passes, hpasses, by rw [run, show runFrom m.config m.filter _ _ _ _ = _ from hrun]; rfl⟩

/-- **A manager at work reports what its passes report under its filter.** -/
theorem report_eq (m : LiveManager σ) (g : Graph) : m.report g = m.toManager.run ⟨g, m.memory⟩ := by
  obtain ⟨passes, -, hrun⟩ := m.run_eq g
  rw [report, hrun]

/-! ### Commands -/

/-- What becomes of a manager after some commands. -/
def after (m : LiveManager σ) (commands : List Command) : LiveManager σ := commands.foldl follow m

theorem registered_follow (m : LiveManager σ) (c : Command) :
    (m.follow c).registered = m.registered := by
  cases c with
  | disable name => rfl
  | enable name => rfl
  | run g =>
    obtain ⟨passes, hpasses, hrun⟩ := m.run_eq g
    rw [follow, hrun]
    exact hpasses

theorem config_follow (m : LiveManager σ) (c : Command) : (m.follow c).config = m.config := by
  cases c with
  | disable name => rfl
  | enable name => rfl
  | run g =>
    obtain ⟨passes, -, hrun⟩ := m.run_eq g
    rw [follow, hrun]

theorem filter_follow (m : LiveManager σ) (c : Command) :
    (m.follow c).filter = m.filter.follow c := by
  cases c with
  | disable name => rfl
  | enable name => rfl
  | run g =>
    obtain ⟨passes, -, hrun⟩ := m.run_eq g
    rw [follow, hrun]
    rfl

/-- **Runs and changes of the filter leave the passes of a manager alone.** -/
theorem toManager_after (m : LiveManager σ) (commands : List Command) :
    (m.after commands).toManager =
      { passes := m.registered, config := m.config,
        filter := commands.foldl PassFilter.follow m.filter } := by
  induction commands generalizing m with
  | nil => rfl
  | cons c commands ih =>
    rw [after, List.foldl_cons]
    refine (ih (m.follow c)).trans ?_
    rw [registered_follow, config_follow, filter_follow, List.foldl_cons]

end LiveManager

end OpGraph
