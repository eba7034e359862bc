import Mathlib.Data.Set.Card
import Mathlib.Order.Interval.Finset.Nat
import OpGraph.Proofs.Optimize.Stages

/-!
# The pipeline a second time

The conversion of negations and the folding of constants have nothing left to do after a run of the
pipeline: what the passes after them do brings up nothing of theirs (`Graph.Exhausted`).  The elimination of
operations without effect has nothing left if there was no garbage at the start, but it may bring the two
products of a chain together, after the fusion has looked for chains.  So a second run changes nothing if and
only if the fusion and the elimination have nothing left (`Pipeline.second_run_unchanged_iff`).
-/

namespace OpGraph

open OpGraph.Graph (Foldable Proceeds Restricts Subsides)

variable {σ : Type} {g₀ g g' : Graph} {s s' t : Session σ} {m : Manager σ} {p : Pass σ} {changed : Bool}

/-! ### What the manager does after a pass -/

/-- After a pass the standard manager takes nodes away, and none if the boundary hangs on all of them. -/
theorem Manager.exists_of_runPass (hm : m.config = {})
    (hconserves : ∀ {t}, p.run m.filter s = .ok changed t → g₀.Conserves t.graph)
    (h : m.runPass p s = .ok changed s') :
    ∃ t, p.run m.filter s = .ok changed t ∧ s'.graph.Restricts t.graph ∧
      ((∀ id, t.graph.contains id → t.graph.Reachable id) → s' = t) := by
  obtain ⟨t, hrun, hafter⟩ := runPass_eq_ok.1 h
  have ht := hconserves hrun
  refine ⟨t, hrun, ?_⟩
  cases changed with
  | false =>
    obtain rfl : s' = t := hafter
    exact ⟨ht.restricts, fun _ => rfl⟩
  | true =>
    rw [hm] at hafter
    obtain ⟨g', hok, rfl⟩ := Action.edit_eq_ok.1 hafter
    obtain ⟨n, g₁, hcollect, hvalidate⟩ : ∃ n g₁, Edit.collectGarbage t.graph = .ok n g₁ ∧
        Edit.validate g₁ = .ok () g' := bind_eq_ok.1 hok
    obtain ⟨-, rfl⟩ := modifyGet_eq_ok.1 hcollect
    have hr : t.graph.collectGarbage.Restricts t.graph := by
      obtain ⟨τ, rank, ht⟩ := ht
      exact Graph.restricts_collectGarbage ht.wellFormed
    obtain ⟨τ, rank, ht'⟩ := Graph.hereditary_conserves.restrict ht hr
    rw [Edit.validate_of_consistent ht'.consistent] at hvalidate
    obtain ⟨-, rfl⟩ := EStateM.Result.ok.inj hvalidate
    refine ⟨hr, fun hreach => ?_⟩
    obtain ⟨τ, rank, ht⟩ := ht
    rw [Graph.collectGarbage_of_reachable ht.wellFormed hreach] at hcollect
    have hsame : t.graph = t.graph.collectGarbage := (EStateM.Result.ok.inj hcollect).2
    rw [← hsame]

/-- If the boundary hangs on everything that a pass has left, the standard manager does nothing after it. -/
theorem Manager.runPass_of_reachable (hm : m.config = {}) (ht : g₀.Conserves t.graph)
    (hreach : ∀ id, t.graph.contains id → t.graph.Reachable id)
    (h : p.run m.filter s = .ok changed t) : m.runPass p s = .ok changed t := by
  obtain ⟨τ, rank, ht⟩ := ht
  refine runPass_eq_ok.2 ⟨t, h, ?_⟩
  split
  · have hcollect := Graph.collectGarbage_of_reachable ht.wellFormed hreach
    rw [hm]
    exact Action.edit_eq_ok.2 ⟨t.graph, bind_eq_ok.2 ⟨0, t.graph, hcollect,
      Edit.validate_of_consistent ht.consistent⟩, rfl⟩
  · rfl

/-! ### Nothing left for the first two passes -/

namespace Graph

theorem WellFormed.lt_size_of_reachable {id : NodeId} (hwf : g.WellFormed) (hid : g.Reachable id) :
    id < g.nodes.size :=
  lt_size_of_contains (hwf.contains_of_reachable hid)

/-- No value with a sign is negated, and nothing is foldable. -/
structure Exhausted (g : Graph) : Prop where
  conserves : g.Conserves g
  negates : g.Lacks Negation.Negates g
  foldable : g.Lacks Foldable g

theorem contains_of_negates {id : NodeId} (h : Negation.Negates g id) : g.contains id := by
  obtain ⟨w, -, hw, -⟩ := h
  exact contains_of_view? hw

theorem Foldable.contains {id : NodeId} (h : g.Foldable id) : g.contains id := by
  obtain ⟨w, hw, -⟩ := h.exists_view
  exact contains_of_view? hw

theorem Lacks.negates_of_subsides (h : g.Lacks Negation.Negates g) (hc : g.Conserves g')
    (hsub : g.Subsides g') : g'.Lacks Negation.Negates g' :=
  Lacks.self (fun _ hid hq => h hid (hsub.negates hq)) hc contains_of_negates

theorem Exhausted.proceed (h : g.Exhausted) (hc : g.Conserves g') (hp : g.Proceeds g g') :
    g'.Exhausted where
  conserves := hc.self
  negates := h.negates.negates_of_subsides hc hp.toSubsides
  foldable := Lacks.self (hp.unfoldable h.foldable) hc Foldable.contains

end Graph

/-- The first two passes decline an exhausted graph. -/
theorem Graph.Exhausted.declined (h : s.graph.Exhausted) :
    (Pass.rule Negation.rule).run {} s = .ok false s ∧ Pass.constantFolding.run {} s = .ok false s := by
  refine ⟨Negation.settling_rule.run_of_lacks h.conserves h.negates {}, ?_⟩
  obtain ⟨τ, rank, ht⟩ := h.conserves
  have hfold := foldConstants_of_unfoldable ht.consistent fun id hid => h.foldable (Or.inl hid)
  exact Action.edit_eq_ok.2 ⟨s.graph, hfold, rfl⟩

/-! ### The passes of the pipeline -/

namespace Pipeline

variable {s₁ s₂ s₃ s₄ : Session σ} {c₁ c₂ c₃ c₄ : Bool} {stats : RunStats}

/-- The manager of the standard pipeline. -/
abbrev standard : Manager σ := ({} : Pipeline).build

theorem passes_standard : (standard : Manager σ).passes =
    [.rule Negation.rule, .constantFolding, .rule MultiplyChain.rule, Identity.pass] := rfl

theorem conserves_of_run (hp : p ∈ (standard : Manager σ).passes) (hs : s.graph.Conserves s.graph)
    (h : p.run {} s = .ok changed t) : s.graph.Conserves t.graph :=
  (keeps_pass_conserves s.graph {} hp {}).of_ok hs h

/-- A pass that reports no change makes none. -/
theorem eq_of_run (hp : p ∈ (standard : Manager σ).passes) (hs : s.graph.Conserves s.graph)
    (h : p.run {} s = .ok false t) : t = s := by
  obtain ⟨τ, rank, ht⟩ := hs
  exact (@Pass.exact_run σ {} p hp {} s false t ⟨ht.wellFormed, ht.acyclic⟩ h).2

/-- What the manager does after a pass keeps the descriptions. -/
theorem exists_of_runPass (hp : p ∈ (standard : Manager σ).passes) (hs : s.graph.Conserves s.graph)
    (h : standard.runPass p s = .ok changed s') :
    ∃ t, p.run {} s = .ok changed t ∧ s'.graph.Restricts t.graph ∧ s.graph.Conserves s'.graph := by
  obtain ⟨t, hrun, hr, -⟩ := Manager.exists_of_runPass rfl (conserves_of_run hp hs) h
  exact ⟨t, hrun, hr, Graph.hereditary_conserves.restrict (conserves_of_run hp hs hrun) hr⟩

/-- Where there is no garbage the manager does nothing after a pass. -/
theorem run_of_runPass (hp : p ∈ (standard : Manager σ).passes) (hs : s.graph.Conserves s.graph)
    (htidy : s.graph.TidyBut []) (h : standard.runPass p s = .ok changed s') :
    p.run {} s = .ok changed s' ∧ s'.graph.TidyBut [] := by
  obtain ⟨t, hrun, -, hsame⟩ := Manager.exists_of_runPass rfl (conserves_of_run hp hs) h
  have ht := (keeps_run_tidy hp {}).of_ok htidy hrun
  obtain ⟨rank, hreach⟩ := id ht
  obtain rfl := hsame fun _ hid => hreach.reachable hid
  exact ⟨hrun, ht⟩

/-- **After the first two passes nothing is left for them.** -/
theorem exhausted_of_first_passes (hs : s.graph.Conserves s.graph)
    (h₁ : standard.runPass (.rule Negation.rule) s = .ok c₁ s₁)
    (h₂ : standard.runPass .constantFolding s₁ = .ok c₂ s₂) :
    s₂.graph.Exhausted ∧ s.graph.Subsides s₂.graph := by
  obtain ⟨t₁, hrun₁, hr₁, hc₁⟩ := exists_of_runPass (by simp [passes_standard]) hs h₁
  obtain ⟨-, hlacks₁⟩ := Negation.settling_rule.lacks_of_run hs hrun₁
  have hsub₁ : s.graph.Subsides s₁.graph :=
    IsTrans.trans (r := Subsides) _ _ _ (Negation.subsides_of_run hs hrun₁) hr₁.subsides
  have hnegates₁ : s₁.graph.Lacks Negation.Negates s₁.graph :=
    Graph.Lacks.self (fun _ hid hq => hlacks₁ hid (hr₁.subsides.negates hq)) hc₁
      Graph.contains_of_negates
  -- the second pass
  obtain ⟨t₂, hrun₂, hr₂, hc₂⟩ := exists_of_runPass (by simp [passes_standard]) hc₁.self h₂
  obtain ⟨g₂, hfold, rfl⟩ := Action.edit_eq_ok.1 hrun₂
  obtain ⟨-, hlacks₂, hsub₂⟩ := unfoldable_of_foldConstants hc₁.self hfold
  have hsub₂ : s₁.graph.Subsides s₂.graph := IsTrans.trans (r := Subsides) _ _ _ hsub₂ hr₂.subsides
  exact ⟨⟨hc₂.self, hnegates₁.negates_of_subsides hc₂ hsub₂,
    Graph.Lacks.self (fun _ hid hq => hlacks₂ hid (hr₂.foldable hq)) hc₂ Graph.Foldable.contains⟩,
    IsTrans.trans (r := Subsides) _ _ _ hsub₁ hsub₂⟩

/-- **The other passes bring up nothing for the first two.** -/
theorem exhausted_of_runPass (hp : p ∈ [.rule MultiplyChain.rule, Identity.pass])
    (hs : s.graph.Exhausted) (h : standard.runPass p s = .ok changed s') :
    s'.graph.Exhausted ∧ s.graph.Subsides s'.graph := by
  have hmem : p ∈ (standard : Manager σ).passes := List.mem_cons_of_mem _ (List.mem_cons_of_mem _ hp)
  obtain ⟨t, hrun, hr, hc⟩ := exists_of_runPass hmem hs.conserves h
  have hproceeds : s.graph.Proceeds s.graph t.graph := by
    rcases List.mem_pair.1 hp with rfl | rfl
    · exact MultiplyChain.proceeds_of_run hs.conserves hrun
    · exact (Identity.proceeds_of_run hs.conserves hrun).2
  have hproceeds : s.graph.Proceeds s.graph s'.graph :=
    IsTrans.trans (r := Proceeds s.graph) _ _ _ hproceeds hr.proceeds
  exact ⟨hs.proceed hc hproceeds, hproceeds.toSubsides⟩

/-- A run of the pipeline runs its four passes, one after the other. -/
theorem exists_stages (h : standard.run s = (⟨.ok changed, stats⟩, s')) :
    ∃ c₁ s₁ c₂ s₂ c₃ s₃ c₄ s₄, standard.runPass (.rule Negation.rule) s = .ok c₁ s₁ ∧
      standard.runPass .constantFolding s₁ = .ok c₂ s₂ ∧
      standard.runPass (.rule MultiplyChain.rule) s₂ = .ok c₃ s₃ ∧
      standard.runPass Identity.pass s₃ = .ok c₄ s₄ ∧
      (Action.edit Edit.validate : Action σ Unit) s₄ = .ok () s' ∧
      stats.perPass = [((Pass.rule (Negation.rule : Rule σ)).name, c₁),
        ((Pass.constantFolding : Pass σ).name, c₂), ((Pass.rule (MultiplyChain.rule : Rule σ)).name, c₃),
        ((Identity.pass : Pass σ).name, c₄)] := by
  obtain ⟨c₁, s₁, h₁, h⟩ := Manager.runFrom_cons_eq_ok (not_isDisabled_empty _) h
  obtain ⟨c₂, s₂, h₂, h⟩ := Manager.runFrom_cons_eq_ok (not_isDisabled_empty _) h
  obtain ⟨c₃, s₃, h₃, h⟩ := Manager.runFrom_cons_eq_ok (not_isDisabled_empty _) h
  obtain ⟨c₄, s₄, h₄, h⟩ := Manager.runFrom_cons_eq_ok (not_isDisabled_empty _) h
  obtain ⟨-, hper, -, hvalidate⟩ := Manager.finish_eq_ok h
  exact ⟨c₁, s₁, c₂, s₂, c₃, s₃, c₄, s₄, h₁, h₂, h₃, h₄, hvalidate, hper⟩

/-- Where the boundary hangs on everything, there are no more operations than nodes that it hangs on. -/
theorem card_operations_le_ncard (hlive : ∀ id, g.contains id → g.Reachable id) (hwf : g.WellFormed) :
    g.operations.card ≤ {id | g.Reachable id}.ncard := by
  rw [← Set.ncard_coe_finset]
  refine Set.ncard_le_ncard (fun id hid => hlive id ?_)
    ((Set.finite_lt_nat g.nodes.size).subset fun _ hid => hwf.lt_size_of_reachable hid)
  obtain ⟨w, hw, -⟩ := Graph.mem_operations.1 (Finset.mem_coe.1 hid)
  exact Graph.contains_of_view? hw

/-- On an exhausted graph a run changes nothing if the last two passes change nothing. -/
theorem run_unchanged_iff_of_exhausted (h : s.graph.Exhausted) :
    (∃ stats, standard.run s = (⟨.ok false, stats⟩, s)) ↔
      (Pass.rule MultiplyChain.rule).run {} s = .ok false s ∧ Identity.pass.run {} s = .ok false s := by
  obtain ⟨hfirst, hsecond⟩ := h.declined
  obtain ⟨τ, rank, ht⟩ := h.conserves
  rw [Manager.run_unchanged_iff (fun p hp t => eq_of_run hp h.conserves) rfl
    (Edit.validate_of_consistent ht.consistent)]
  constructor
  · intro hall
    exact ⟨hall _ (by simp [passes_standard]) (not_isDisabled_empty _),
      hall _ (by simp [passes_standard]) (not_isDisabled_empty _)⟩
  · rintro ⟨hthird, hfourth⟩ p hp -
    rw [passes_standard] at hp
    simp only [List.mem_cons, List.not_mem_nil, or_false] at hp
    rcases hp with rfl | rfl | rfl | rfl
    exacts [hfirst, hsecond, hthird, hfourth]

/-- Where there is no garbage the first two passes leave none. -/
theorem tidy_of_first_passes (hs : s.graph.Conserves s.graph) (htidy : s.graph.TidyBut [])
    (h₁ : standard.runPass (.rule Negation.rule) s = .ok c₁ s₁)
    (h₂ : standard.runPass .constantFolding s₁ = .ok c₂ s₂) : s₂.graph.TidyBut [] := by
  obtain ⟨-, -, -, hc₁⟩ := exists_of_runPass (by simp [passes_standard]) hs h₁
  obtain ⟨-, htidy₁⟩ := run_of_runPass (by simp [passes_standard]) hs htidy h₁
  exact (run_of_runPass (by simp [passes_standard]) hc₁.self htidy₁ h₂).2

/-- Without garbage the elimination has nothing left to do after the pipeline, and if it has changed
nothing, neither has the fusion. -/
theorem declined_of_tidy (hs : s.graph.Exhausted) (htidy : s.graph.TidyBut [])
    (hsize : s.graph.operations.card ≤ 100)
    (h₃ : standard.runPass (.rule MultiplyChain.rule) s = .ok c₃ s₃)
    (h₄ : standard.runPass Identity.pass s₃ = .ok c₄ s₄) :
    Identity.pass.run {} s₄ = .ok false s₄ ∧
      (c₄ = false → (Pass.rule MultiplyChain.rule).run {} s₄ = .ok false s₄) := by
  obtain ⟨hs₃, hsub₃⟩ := exhausted_of_runPass List.mem_cons_self hs h₃
  obtain ⟨hrun₃, htidy₃⟩ := run_of_runPass (by simp [passes_standard]) hs.conserves htidy h₃
  obtain ⟨hrun₄, -⟩ := run_of_runPass (by simp [passes_standard]) hs₃.conserves htidy₃ h₄
  have hsize₃ := Nat.le_trans hsub₃.card_le hsize
  refine ⟨Identity.run_of_run hs₃.conserves hsize₃ hrun₄, fun hunchanged => ?_⟩
  subst hunchanged
  obtain ⟨hc₃, hlacks⟩ := MultiplyChain.settling_rule.lacks_of_run hs.conserves hrun₃
  obtain rfl := eq_of_run (by simp [passes_standard]) hs₃.conserves hrun₄
  exact MultiplyChain.settling_rule.run_of_lacks hc₃ hlacks {}

/-- **What a run leaves to do for a second one.**  From a graph without cycles whose descriptions are up to
date, a run leaves nothing for the conversion of negations and the folding of constants.  So a second run
changes nothing if and only if the fusion of multiplications and the elimination of operations without
effect have nothing left to do.  If there has been no garbage at the start, and no more nodes than the bound
on traversals, the elimination has nothing left; and if it has changed nothing in the first run, neither does
the second run. -/
theorem second_run_unchanged_iff (hwf : g.WellFormed) (hacyclic : g.Acyclic) (hcons : g.Consistent)
    (hbuilt : ∀ id op, g.Reachable id → g.op? id = some op → op.isBuiltIn)
    (hsize : {id | g.Reachable id}.ncard ≤ 100)
    {memory : σ} (hrun : ({} : Pipeline).build.run ⟨g, memory⟩ = (⟨.ok changed, stats⟩, s)) :
    ((Pass.rule Negation.rule).run {} s = .ok false s ∧ Pass.constantFolding.run {} s = .ok false s) ∧
      ((∃ stats', ({} : Pipeline).build.run s = (⟨.ok false, stats'⟩, s)) ↔
        (Pass.rule MultiplyChain.rule).run {} s = .ok false s ∧ Identity.pass.run {} s = .ok false s) ∧
      ((∀ id, g.contains id → g.Reachable id) →
        Identity.pass.run {} s = .ok false s ∧
          (((Identity.pass : Pass σ).name, false) ∈ stats.perPass →
            ∃ stats', ({} : Pipeline).build.run s = (⟨.ok false, stats'⟩, s))) := by
  obtain ⟨c₁, s₁, c₂, s₂, c₃, s₃, c₄, s₄, h₁, h₂, h₃, h₄, hvalidate, hper⟩ := exists_stages hrun
  have hstart := Graph.conserves_start hwf hacyclic hcons hbuilt
  obtain ⟨hs₂, hsub₂⟩ := exhausted_of_first_passes hstart h₁ h₂
  obtain ⟨hs₃, -⟩ := exhausted_of_runPass List.mem_cons_self hs₂ h₃
  obtain ⟨hs₄, -⟩ := exhausted_of_runPass (List.mem_cons_of_mem _ List.mem_cons_self) hs₃ h₄
  -- the last validation finds nothing to do
  obtain rfl : s₄ = s := by
    obtain ⟨τ, rank, ht⟩ := hs₄.conserves
    obtain ⟨g₁, hok, rfl⟩ := Action.edit_eq_ok.1 hvalidate
    rw [Edit.validate_of_consistent ht.consistent] at hok
    rw [← (EStateM.Result.ok.inj hok).2]
  have hiff := run_unchanged_iff_of_exhausted hs₄
  refine ⟨hs₄.declined, hiff, fun hlive => ?_⟩
  obtain ⟨rank, hrank⟩ := Graph.exists_rank hwf hacyclic
  have hbuilt (id : NodeId) (op : Op) (hop : g.op? id = some op) : op.isBuiltIn := by
    obtain ⟨w, hw, -⟩ := Graph.exists_view_of_op? hop
    exact hbuilt id op (hlive id (Graph.contains_of_view? hw)) hop
  have htidy₂ := tidy_of_first_passes hstart ⟨rank, Graph.tidy_of_reachable hwf hrank hbuilt hlive⟩ h₁ h₂
  have hcard := Nat.le_trans hsub₂.card_le (Nat.le_trans (card_operations_le_ncard hlive hwf) hsize)
  obtain ⟨hfourth, hthird⟩ := declined_of_tidy hs₂ htidy₂ hcard h₃ h₄
  refine ⟨hfourth, fun hmem => hiff.2 ⟨hthird ?_, hfourth⟩⟩
  rw [hper] at hmem
  simpa [Pass.name, Identity.pass, Pass.constantFolding, Negation.rule, MultiplyChain.rule,
    Rule.ofEdit] using hmem

end Pipeline

/-! ### A chain in two parts -/

namespace Graph

/-- The boundary hangs on no more nodes than there are. -/
theorem WellFormed.ncard_reachable_le (hwf : g.WellFormed) :
    {id | g.Reachable id}.ncard ≤ g.nodes.size := by
  calc {id | g.Reachable id}.ncard
      ≤ (Set.Iio g.nodes.size).ncard :=
        Set.ncard_le_ncard (fun _ hid => hwf.lt_size_of_reachable hid) (Set.finite_lt_nat _)
    _ = g.nodes.size := by simp [Set.ncard_eq_toFinset_card']

/-- Two products with constants, with a conversion without effect between them. -/
def partedChain : Graph :=
  let empty : Tensor := .filled .f64 [0] 0
  let d : Desc := empty.desc
  (((((({ name := "chain" } : Graph).insert (.parameter .f64 (.ofShape [0])) [] [d]).insert
    (.constant empty) [] [d]).insert .multiply [⟨0, 0⟩, ⟨1, 0⟩] [d]).insert (.convert .f64) [⟨2, 0⟩]
      [d]).insert .multiply [⟨3, 0⟩, ⟨1, 0⟩] [d]).insert .result [⟨4, 0⟩] [d]

/-- The graph without the conversion. -/
def partedChainJoined : Graph := (partedChain.rewire ⟨4, 0⟩ ⟨3, 0⟩ ⟨2, 0⟩).detach 3

theorem wellFormed_partedChain : partedChain.WellFormed := by
  refine wellFormed_insert_singleton (wellFormed_insert (wellFormed_insert_singleton
    (wellFormed_insert (wellFormed_insert (wellFormed_insert (wellFormed_empty _) (by simp)) (by simp))
      fun v hv => ?_) ⟨_, rfl⟩) fun v hv => ?_) ⟨_, rfl⟩
  all_goals
    rcases List.mem_pair.1 hv with rfl | rfl
    exacts [⟨_, rfl⟩, ⟨_, rfl⟩]

theorem acyclic_partedChain : partedChain.Acyclic := by
  refine acyclic_of_rank (fun id => id) fun p c hp => ?_
  have hsources : p ∈ partedChain.sourcesOf c := hp
  match c, lt_size_of_contains (contains_of_produces_right hp) with
  | 0, _ | 1, _ => cases hsources
  | 3, _ | 5, _ =>
    obtain rfl := List.mem_singleton.1 hsources
    decide
  | 2, _ | 4, _ => rcases List.mem_pair.1 hsources with rfl | rfl <;> decide

theorem consistent_partedChain : partedChain.Consistent := by
  intro id hr
  refine consistentAt_iff_view.2 ?_
  match id, lt_size_of_contains (wellFormed_partedChain.contains_of_reachable hr) with
  | 0, _ | 1, _ => exact ⟨_, [], rfl, .nil, rfl⟩
  | 3, _ | 5, _ => exact ⟨_, [_], rfl, .cons rfl .nil, rfl⟩
  | 2, _ | 4, _ => exact ⟨_, [_, _], rfl, .cons rfl (.cons rfl .nil), rfl⟩

theorem isBuiltIn_partedChain {id : NodeId} {op : Op} (h : partedChain.op? id = some op) :
    op.isBuiltIn := by
  obtain ⟨w, hw, rfl⟩ := exists_view_of_op? h
  match id, lt_size_of_view? hw with
  | 0, _ | 1, _ | 2, _ | 3, _ | 4, _ | 5, _ =>
    obtain rfl := Option.some.inj hw
    rfl

theorem conserves_partedChain : partedChain.Conserves partedChain :=
  conserves_start wellFormed_partedChain acyclic_partedChain consistent_partedChain fun _ _ _ =>
    isBuiltIn_partedChain

theorem run_partedChain :
    Identity.pass.run {} (⟨partedChain, ()⟩ : Session Unit) = .ok true ⟨partedChainJoined, ()⟩ := by
  with_unfolding_all rfl

theorem conserves_partedChainJoined : partedChain.Conserves partedChainJoined :=
  Pipeline.conserves_of_run (by simp [Pipeline.passes_standard]) conserves_partedChain run_partedChain

theorem order_partedChainJoined : partedChainJoined.order = [0, 1, 2, 4, 5] := by
  decide +kernel

theorem reachable_partedChainJoined {id : NodeId} (hid : partedChainJoined.contains id) :
    partedChainJoined.Reachable id := by
  obtain ⟨τ, rank, ht⟩ := conserves_partedChainJoined
  rw [← mem_order_iff ht.wellFormed, order_partedChainJoined]
  match id, lt_size_of_contains hid with
  | 0, _ | 1, _ | 2, _ | 4, _ | 5, _ => decide
  | 3, _ => cases hid

end Graph

namespace Pipeline

open OpGraph.Graph

theorem run_standard_partedChain :
    ∃ stats, standard.run (⟨partedChain, ()⟩ : Session Unit) =
      (⟨.ok true, stats⟩, ⟨partedChainJoined, ()⟩) := by
  have h₁ : standard.runPass (.rule Negation.rule) (⟨partedChain, ()⟩ : Session Unit) =
      .ok false ⟨partedChain, ()⟩ := by with_unfolding_all rfl
  have h₂ : standard.runPass .constantFolding (⟨partedChain, ()⟩ : Session Unit) =
      .ok false ⟨partedChain, ()⟩ := by with_unfolding_all rfl
  have h₃ : standard.runPass (.rule MultiplyChain.rule) (⟨partedChain, ()⟩ : Session Unit) =
      .ok false ⟨partedChain, ()⟩ := by with_unfolding_all rfl
  have h₄ : standard.runPass Identity.pass (⟨partedChain, ()⟩ : Session Unit) =
      .ok true ⟨partedChainJoined, ()⟩ :=
    Manager.runPass_of_reachable rfl conserves_partedChainJoined
      (fun _ => reachable_partedChainJoined) run_partedChain
  obtain ⟨τ, rank, ht⟩ := conserves_partedChainJoined
  rw [Manager.run, passes_standard, Manager.runFrom_cons (not_isDisabled_empty _) h₁,
    Manager.runFrom_cons (not_isDisabled_empty _) h₂,
    Manager.runFrom_cons (not_isDisabled_empty _) h₃,
    Manager.runFrom_cons (not_isDisabled_empty _) h₄]
  exact Manager.runFrom_of_declined (by simp) (Edit.validate_of_consistent ht.consistent)

/-- The first run takes the conversion away, and the second one fuses the chain. -/
theorem second_run_changes_partedChain :
    (partedChain.WellFormed ∧ partedChain.Acyclic ∧ partedChain.Consistent ∧
      (∀ id op, partedChain.Reachable id → partedChain.op? id = some op → op.isBuiltIn) ∧
      {id | partedChain.Reachable id}.ncard ≤ 100) ∧
    (∃ stats, ({} : Pipeline).build.run (⟨partedChain, ()⟩ : Session Unit) =
      (⟨.ok true, stats⟩, ⟨partedChainJoined, ()⟩)) ∧
    (({} : Pipeline).build.run (⟨partedChainJoined, ()⟩ : Session Unit)).1.outcome = .ok true := by
  refine ⟨⟨wellFormed_partedChain, acyclic_partedChain, consistent_partedChain,
    fun _ _ _ => isBuiltIn_partedChain,
    Nat.le_trans wellFormed_partedChain.ncard_reachable_le (by decide)⟩, run_standard_partedChain,
    by decide +kernel⟩

/-- The run that fuses the chain leaves nothing to do. -/
theorem second_run_unchanged_partedChainJoined :
    (partedChainJoined.WellFormed ∧ partedChainJoined.Acyclic ∧ partedChainJoined.Consistent) ∧
    ∃ stats s, ({} : Pipeline).build.run (⟨partedChainJoined, ()⟩ : Session Unit) =
        (⟨.ok true, stats⟩, s) ∧
      ∃ stats', ({} : Pipeline).build.run s = (⟨.ok false, stats'⟩, s) := by
  obtain ⟨τ, rank, ht⟩ := conserves_partedChainJoined.self
  have hacyclic : partedChainJoined.Acyclic := acyclic_of_rank rank fun _ _ => ht.rank_lt
  have houtcome : (({} : Pipeline).build.run (⟨partedChainJoined, ()⟩ : Session Unit)).1.outcome =
      .ok true := by decide +kernel
  have hstats : (({} : Pipeline).build.run (⟨partedChainJoined, ()⟩ : Session Unit)).1.stats =
      ⟨4, 1, 3, [("ConvertNegative", false), ("ConstantFolding", false),
        ("FuseMultiplyConstants", true), ("NopElimination", false)]⟩ := by decide +kernel
  obtain ⟨s, hrun⟩ : ∃ s, ({} : Pipeline).build.run (⟨partedChainJoined, ()⟩ : Session Unit) =
      (⟨.ok true, ⟨4, 1, 3, [("ConvertNegative", false), ("ConstantFolding", false),
        ("FuseMultiplyConstants", true), ("NopElimination", false)]⟩⟩, s) :=
    ⟨_, Prod.ext (RunReport.ext houtcome hstats) rfl⟩
  obtain ⟨-, -, hafter⟩ := second_run_unchanged_iff ht.wellFormed hacyclic ht.consistent
    (fun _ _ => conserves_partedChainJoined.self.isBuiltIn)
    (Nat.le_trans ht.wellFormed.ncard_reachable_le (by decide)) hrun
  exact ⟨⟨ht.wellFormed, hacyclic, ht.consistent⟩, _, _, hrun, (hafter fun _ => reachable_partedChainJoined).2
    (by decide)⟩

end Pipeline

end OpGraph
