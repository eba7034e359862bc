import OpGraph.Pass.Manager
import OpGraph.Proofs.Edit.Outcome

/-!
# Runs that report no change

The answer of a run counts the passes that have reported a change (`Manager.answer_of_runFrom`).  So if the
passes report exactly what they do, a run answers that nothing has changed if and only if each pass on its
own would have declined the graph (`Manager.run_unchanged_iff`).
-/

namespace OpGraph.Manager

variable {σ : Type} {m : Manager σ} {p : Pass σ} {passes : List (Pass σ)} {released : Nat}
  {stats stats' : RunStats} {s s' : Session σ} {changed c : Bool}

theorem runPass_eq_ok : m.runPass p s = .ok changed s' ↔
    ∃ t, p.run m.filter s = .ok changed t ∧
      if changed then (Action.edit (afterChange m.config) : Action σ Unit) t = .ok () s' else s' = t := by
  rw [runPass, bind_eq_ok]
  constructor
  · intro h
    obtain ⟨b, t, hrun, h⟩ := h
    cases b with
    | false =>
      obtain ⟨rfl, rfl⟩ := pure_eq_ok.1 h
      exact ⟨t, hrun, rfl⟩
    | true =>
      obtain ⟨u, t', hafter, h⟩ := bind_eq_ok.1 h
      obtain ⟨rfl, rfl⟩ := pure_eq_ok.1 h
      exact ⟨t, hrun, hafter⟩
  · intro h
    obtain ⟨t, hrun, h⟩ := h
    refine ⟨changed, t, hrun, ?_⟩
    cases changed with
    | false =>
      obtain rfl : s' = t := h
      rfl
    | true => exact bind_eq_ok.2 ⟨(), s', h, rfl⟩

theorem runFrom_cons (hp : ¬ m.filter.isDisabled p.name) (h : m.runPass p s = .ok changed s') :
    m.runFrom released (p :: passes) stats s =
      m.runFrom released passes (stats.record p.name changed) s' := by
  rw [runFrom, if_neg hp, h]

/-- A run that has answered has gone through the first pass. -/
theorem runFrom_cons_eq_ok (hp : ¬ m.filter.isDisabled p.name)
    (h : m.runFrom released (p :: passes) stats s = (⟨.ok c, stats'⟩, s')) :
    ∃ changed s₁, m.runPass p s = .ok changed s₁ ∧
      m.runFrom released passes (stats.record p.name changed) s₁ = (⟨.ok c, stats'⟩, s') := by
  rw [runFrom, if_neg hp] at h
  cases hpass : m.runPass p s with
  | ok changed s₁ =>
    rw [hpass] at h
    exact ⟨changed, s₁, rfl, h⟩
  | error e s₁ =>
    rw [hpass] at h
    cases congrArg (·.1.outcome) h

/-- The end of a run adds nothing to what has been counted. -/
theorem finish_eq_ok (h : m.finish released stats s = (⟨.ok c, stats'⟩, s')) :
    stats'.passesChanged = stats.passesChanged ∧ stats'.perPass = stats.perPass ∧
      c = decide (stats.passesChanged ≠ 0) ∧
      if m.config.finalValidation then (Action.edit Edit.validate : Action σ Unit) s = .ok () s'
      else s' = s := by
  unfold finish at h
  extract_lets last at h
  cases hlast : last s with
  | error e s₁ =>
    rw [hlast] at h
    cases congrArg (·.1.outcome) h
  | ok u s₁ =>
    rw [hlast] at h
    cases h
    refine ⟨rfl, rfl, rfl, ?_⟩
    split
    next hfinal =>
      rw [← hlast]
      exact (congrFun (if_pos hfinal) s).symm
    next hfinal =>
      obtain ⟨-, rfl⟩ := pure_eq_ok.1 ((congrFun (if_neg hfinal) s).symm.trans hlast)
      rfl

theorem passesChanged_record (stats : RunStats) (name : String) (changed : Bool) :
    (stats.record name changed).passesChanged = stats.passesChanged + changed.toNat := by
  cases changed <;> rfl

/-- **The answer of a run counts the changes.** -/
theorem answer_of_runFrom (h : m.runFrom released passes stats s = (⟨.ok c, stats'⟩, s')) :
    stats.passesChanged ≤ stats'.passesChanged ∧ c = decide (stats'.passesChanged ≠ 0) := by
  induction passes generalizing stats s with
  | nil =>
    obtain ⟨hsame, -, rfl, -⟩ := finish_eq_ok h
    rw [hsame]
    exact ⟨Nat.le_refl _, rfl⟩
  | cons p passes ih =>
    by_cases hp : m.filter.isDisabled p.name
    · rw [runFrom, if_pos hp] at h
      exact ih h
    · obtain ⟨changed, s₁, -, hrest⟩ := runFrom_cons_eq_ok hp h
      obtain ⟨hle, hc⟩ := ih hrest
      rw [passesChanged_record] at hle
      exact ⟨Nat.le_trans (Nat.le_add_right _ _) hle, hc⟩

variable (hexact : ∀ p ∈ passes, ∀ t, p.run m.filter s = .ok false t → t = s)

include hexact

theorem declines_of_runFrom (h : m.runFrom released passes stats s = (⟨.ok false, stats'⟩, s')) :
    ∀ p ∈ passes, ¬ m.filter.isDisabled p.name → p.run m.filter s = .ok false s := by
  induction passes generalizing stats with
  | nil => simp
  | cons p passes ih =>
    obtain ⟨hexactp, hexact⟩ := List.forall_mem_cons.1 hexact
    by_cases hp : m.filter.isDisabled p.name
    · rw [runFrom, if_pos hp] at h
      exact List.forall_mem_cons.2 ⟨fun hnot => absurd hp hnot, ih hexact h⟩
    · obtain ⟨changed, s₁, hpass, hrest⟩ := runFrom_cons_eq_ok hp h
      obtain ⟨hle, hanswer⟩ := answer_of_runFrom hrest
      have hzero : stats'.passesChanged = 0 := by simpa using hanswer
      rw [passesChanged_record, hzero] at hle
      obtain rfl : changed = false := by
        cases changed with
        | false => rfl
        | true => cases hle
      obtain ⟨t, hrun, rfl⟩ := runPass_eq_ok.1 hpass
      obtain rfl := hexactp _ hrun
      exact List.forall_mem_cons.2 ⟨fun _ => hrun, ih hexact hrest⟩

omit hexact in
theorem runFrom_of_declined
    (hdecline : ∀ p ∈ passes, ¬ m.filter.isDisabled p.name → p.run m.filter s = .ok false s)
    (hvalidate : Edit.validate s.graph = .ok () s.graph) :
    ∃ stats', m.runFrom released passes stats s =
      (⟨.ok (decide (stats.passesChanged ≠ 0)), stats'⟩, s) := by
  induction passes generalizing stats with
  | nil =>
    have hlast : (if m.config.finalValidation then .edit Edit.validate else pure () : Action σ Unit) s =
        .ok () s := by
      split
      · exact Action.edit_eq_ok.2 ⟨s.graph, hvalidate, rfl⟩
      · rfl
    rw [runFrom, finish, hlast]
    exact ⟨_, rfl⟩
  | cons p passes ih =>
    obtain ⟨hfirst, hdecline⟩ := List.forall_mem_cons.1 hdecline
    rw [runFrom]
    split
    · exact ih hdecline
    next hp =>
      rw [runPass_eq_ok.2 ⟨s, hfirst hp, rfl⟩]
      exact ih hdecline

/-- **A run changes nothing if and only if each pass on its own changes nothing.** -/
theorem run_unchanged_iff (hpasses : m.passes = passes)
    (hvalidate : Edit.validate s.graph = .ok () s.graph) :
    (∃ stats, m.run s = (⟨.ok false, stats⟩, s)) ↔
      ∀ p ∈ passes, ¬ m.filter.isDisabled p.name → p.run m.filter s = .ok false s := by
  subst hpasses
  constructor
  · intro h
    obtain ⟨stats, h⟩ := h
    exact declines_of_runFrom hexact h
  · exact fun h => runFrom_of_declined h hvalidate

end OpGraph.Manager
