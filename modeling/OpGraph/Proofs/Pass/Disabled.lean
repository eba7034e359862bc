import OpGraph.Proofs.Pass.Calls
import OpGraph.Proofs.Pass.Live

/-!
# What is switched off might as well not be there

Whatever has been done with a manager, its next run reports what a new manager reports that has been given
the enabled part of the passes and has nothing switched off (`disabled_as_unregistered`).  The actions of
rules that are switched off are not called, which the notes of the same run show.
-/

namespace OpGraph.LiveManager

variable {σ : Type}

/-- The manager notes from now on the calls of all actions of its passes. -/
def noting (m : LiveManager σ) : LiveManager (σ × List Note) where
  passes := m.passes.map fun p => { pass := p.pass.noting, filter := p.filter }
  config := m.config
  filter := m.filter
  stats := m.stats
  memory := (m.memory, [])

theorem toManager_noting (m : LiveManager σ) : m.noting.toManager = m.toManager.noting := by
  have hpasses : m.noting.registered = m.registered.map Pass.noting := by
    rw [registered, registered, noting, List.map_map, List.map_map]
    rfl
  rw [toManager, hpasses]
  rfl

theorem toManager_start (passes : List (Pass σ)) (config : ManagerConfig) (memory : σ) :
    (start passes config memory).toManager = { passes, config } := by
  have hpasses : (start passes config memory).registered = passes := by
    rw [registered, start, List.map_map]
    exact List.map_id passes
  rw [toManager, hpasses]
  rfl

/-- **To switch off is not to register.**  After any commands a run of a manager reports the same, and
leaves the same session, as a run of a new manager without the passes and the rules that are switched off
at that time.  It calls no action of a rule that is switched off: when calls are noted the run reports
the same and leaves the same session, and no note is about such a rule or about a rule of such a pass. -/
theorem disabled_as_unregistered (m : LiveManager σ) (commands : List Command) (g : Graph) :
    let filter := commands.foldl PassFilter.follow m.filter
    let m' := m.after commands
    m'.report g = (start (filter.enabledPasses m.registered) m.config m'.memory).report g ∧
      m'.report g = ((m'.noting.report g).1, (m'.noting.report g).2.plain) ∧
        ∀ note ∈ (m'.noting.report g).2.memory.2,
          ¬ filter.isDisabled note.pass ∧ ¬ filter.isDisabled note.rule := by
  intro filter m'
  have hm' : m'.toManager = { passes := m.registered, config := m.config, filter } :=
    m.toManager_after commands
  have hnoting : m'.noting.report g = m'.toManager.noting.run ⟨g, m'.memory, []⟩ := by
    rw [report_eq, toManager_noting]
    rfl
  refine ⟨?_, ?_, ?_⟩
  · rw [report_eq, report_eq, toManager_start, hm', ← Manager.run_enabledPart]
    rfl
  · rw [hnoting, report_eq]
    exact m'.toManager.plain_run_noting ⟨g, m'.memory, []⟩
  · have hstart : Obeys m'.toManager.filter (⟨g, m'.memory, []⟩ : Session (σ × List Note)) :=
      fun _ hnote => nomatch hnote
    have hend := m'.toManager.obeys_run_noting hstart
    rw [← hnoting, hm'] at hend
    exact hend

end OpGraph.LiveManager
