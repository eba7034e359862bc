import OpGraph.Optimize.Pipeline
import OpGraph.Proofs.Optimize.Elimination
import OpGraph.Proofs.Optimize.FoldableRules
import OpGraph.Proofs.Optimize.Liveness
import OpGraph.Proofs.Pass.Enabled
import OpGraph.Proofs.Pass.Unchanged

/-!
# What each pass leaves behind

After the conversion of negations no signed value is negated, after the folding of constants nothing is
foldable, and after the fusion of multiplications no chain is fusable.  No pass brings up a negation of a
signed value, and the last two bring up nothing to fold.

The elimination of operations without effect comes to an end within its bound on traversals on graphs with
no more operations than that (`Identity.run_of_run`).
-/

namespace OpGraph

open OpGraph.Graph (Foldable Proceeds Subsides)

variable {σ : Type} {r : Rule σ} {fires : Graph → NodeId → Prop} {g₀ g g' : Graph} {id : NodeId}
  {s t : Session σ} {changed : Bool}

/-! ### Rules that settle -/

/-- A rule that could fire nowhere declines. -/
theorem Rule.Settling.run_of_lacks (hr : r.Settling fires) (hs : g₀.Conserves s.graph)
    (h : g₀.Lacks fires s.graph) (filter : PassFilter) :
    (Pass.rule r).run filter s = .ok false s :=
  runRules_of_settled (traverse_of_lacks hr hs h filter) (traverse_of_lacks hr hs h filter) r.config

/-- **After a rule that settles has run, it could fire nowhere.** -/
theorem Rule.Settling.lacks_of_run (hr : r.Settling fires) (hs : s.graph.Conserves s.graph)
    (h : (Pass.rule r).run {} s = .ok changed t) :
    s.graph.Conserves t.graph ∧ s.graph.Lacks fires t.graph := by
  have hbuilt (id : NodeId) (op : Op) (hid : s.graph.Reachable id) (hop : s.graph.op? id = some op) :
      op.isBuiltIn := hs.isBuiltIn hid hop
  obtain ⟨τ, rank, ht⟩ := hs
  obtain ⟨c, s', hfirst, hend⟩ := exists_calm_traverse hr ht.wellFormed ht.acyclic ht.consistent hbuilt
    (not_isDisabled_empty r.name)
  have hrun : (Pass.rule r).run {} s = .ok c s' :=
    runRules_of_settled hfirst (traverse_of_lacks hr hend.conserves hend.lacks {}) r.config
  cases h.symm.trans hrun
  exact ⟨hend.conserves, hend.lacks⟩

/-! ### What a pass does not bring up -/

theorem Reported.of_refl {S : Type} {R : S → S → Prop} {a b : S} (h : Reported R changed a b)
    (hrefl : R a a) : R a b := by
  cases changed with
  | true => exact h
  | false =>
    obtain rfl : b = a := h
    exact hrefl

theorem Graph.Conserves.restricts (h : g₀.Conserves g) : g.Restricts g := by
  obtain ⟨τ, rank, ht⟩ := h
  exact ht.wellFormed.restricts

theorem Negation.subsides_of_run (hs : s.graph.Conserves s.graph)
    (h : (Pass.rule Negation.rule).run {} s = .ok changed t) : s.graph.Subsides t.graph := by
  obtain ⟨-, hreported⟩ := reports_runRules_of_advances
    (List.forall_mem_singleton.2 advances_rule) rule.config {} hs h
  exact hreported.of_refl hs.restricts.subsides

theorem MultiplyChain.proceeds_of_run (hs : s.graph.Conserves s.graph)
    (h : (Pass.rule MultiplyChain.rule).run {} s = .ok changed t) :
    s.graph.Proceeds s.graph t.graph := by
  obtain ⟨-, hreported⟩ := reports_runRules_of_advances
    (List.forall_mem_singleton.2 advances_rule) rule.config {} hs h
  exact hreported.of_refl hs.restricts.proceeds

namespace Identity

theorem proceeds_of_run (hs : s.graph.Conserves s.graph) (h : Identity.pass.run {} s = .ok changed t) :
    s.graph.Conserves t.graph ∧ s.graph.Proceeds s.graph t.graph := by
  obtain ⟨hconserves, hreported⟩ := reports_runRules_of_advances (fun r hr => advances_of_mem hr) {} {} hs h
  exact ⟨hconserves, hreported.of_refl hs.restricts.proceeds⟩

theorem ncard_candidates_le (g : Graph) : (candidates g).ncard ≤ g.operations.card := by
  have hkinds : ∀ k ∈ [Kind.convert, .multiply, .add], k ≠ .constant := by decide
  rw [← Set.ncard_coe_finset]
  refine Set.ncard_le_ncard (fun id hid => ?_) g.operations.finite_toSet
  obtain ⟨-, w, hw, hkind⟩ := hid
  exact Finset.mem_coe.2 (Graph.mem_operations.2 ⟨w, hw, hkinds _ hkind⟩)

/-- **Within its bound on traversals the elimination comes to an end.** -/
theorem run_of_run (hs : s.graph.Conserves s.graph) (hsize : s.graph.operations.card ≤ 100)
    (h : Identity.pass.run {} s = .ok changed t) : Identity.pass.run {} t = .ok false t := by
  obtain ⟨τ, rank, ht⟩ := hs
  have hrules : ∀ r ∈ ([convertRule, multiplyRule, addRule] : List (Rule σ)),
      r ∈ [convertRule, multiplyRule, addRule] := fun _ hr => hr
  exact runRules_of_dwindling (show TraversalConfig.runToFixpoint {} = true from rfl)
    (reports_traverse_candidates hrules {} true) (exists_traverse_of_no_candidates hrules {} true)
    ht.wellFormed (Nat.le_trans (ncard_candidates_le s.graph) hsize) h

end Identity

/-! ### Folding -/

/-- The folding of a node brings up nothing that passes look for. -/
theorem reports_foldNode_subsides (hid : g₀.Relevant id) :
    Reports g₀.Conserves Subsides (Edit.foldNode id) := by
  intro g folded g' hg h
  have ⟨τ, rank, ht⟩ := hg
  have hchange := Edit.foldNode_eq_ok ht.wellFormed h
  cases folded with
  | false =>
    obtain ⟨-, rfl⟩ := hchange
    exact ⟨hg, .start g'⟩
  | true =>
    obtain ⟨values, ρ, g₁, g₂, hfolds, rfl⟩ := hchange
    obtain ⟨w, -, hw, -⟩ := Graph.fold?_eq_some hfolds.fold?_eq
    exact ⟨(Edit.ends_foldNode_of_typed ht hid (Graph.contains_of_view? hw)).of_ok h,
      hfolds.subsides⟩

/-- What the folding of each node keeps, the walk keeps, since inference finds nothing to do. -/
theorem reported_foldConstants {P : Graph → Prop} {R : Graph → Graph → Prop} [IsTrans Graph R]
    (hP : ∀ {g'}, P g' → g.Conserves g')
    (hfold : ∀ {id}, g.Relevant id → Reports P R (Edit.foldNode id)) (hg : P g)
    (h : Edit.foldConstants g = .ok changed g') : P g' ∧ Reported R changed g g' := by
  have hrelevant : ∀ id ∈ g.order, g.Relevant id := fun id hid =>
    Or.inl (Graph.reachable_of_mem_order hid)
  have habides : ∀ id ∈ g.order, Abides P R (Edit.revalidate id) := by
    intro id hid g₁ b g₂ hg₁ hre
    obtain rfl := (hP hg₁).revalidate_eq (hrelevant id hid) hre
    exact ⟨hg₁, fun _ h => h⟩
  rw [Edit.foldConstants, get_bind] at h
  exact reported_foldNodes habides (fun id hid => hfold (hrelevant id hid)) hg (.start g) h

/-- **After constants have been folded, nothing is foldable.** -/
theorem unfoldable_of_foldConstants (hg : g.Conserves g)
    (h : Edit.foldConstants g = .ok changed g') :
    g.Conserves g' ∧ g.Lacks Foldable g' ∧ g.Subsides g' := by
  have hbuilt (id : NodeId) (op : Op) (hid : g.Reachable id) (hop : g.op? id = some op) :
      op.isBuiltIn := hg.isBuiltIn hid hop
  obtain ⟨τ, rank, ht⟩ := id hg
  obtain ⟨c, g'', hfold, hend⟩ := exists_foldConstants ht.wellFormed ht.acyclic ht.consistent hbuilt
  obtain ⟨rfl, rfl⟩ := EStateM.Result.ok.inj (h.symm.trans hfold)
  obtain ⟨-, hreported⟩ := reported_foldConstants (fun hg => hg) reports_foldNode_subsides hg h
  exact ⟨hend.conserves, hend.lacks, hreported.of_refl hg.restricts.subsides⟩

end OpGraph
