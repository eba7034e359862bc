import OpGraph.Proofs.Optimize.Fusion

/-!
# Rules of the standard passes that settle in one traversal

The rule for negations fires at the negations of signed values (`Negation.hit_iff_negates`), and what
it adds is no negation.  The fusion of chains may add a product that is the outer one of a new chain,
but only if the inner product was the outer one of a chain already, and that one has been passed.  So
both rules leave nothing to do for a second traversal (`settles_in_one_traversal`), and the bound on the
number of traversals does not matter.
-/

namespace OpGraph

variable {σ : Type} {g₀ g g' : Graph} {id q : NodeId} {s s' : Session σ} {hit : Bool}

namespace Negation

/-- A negation of a value whose type holds negative numbers. -/
def Negates (g : Graph) (id : NodeId) : Prop :=
  ∃ w d, g.view? id = some w ∧ w.op = .unary .negative ∧ w.descs = [d] ∧ d.elementType.isSigned

/-- A negation reads one value and has its description. -/
theorem exists_operand {τ : Typing} {rank : NodeId → Nat} (ht : Graph.Typed g₀ τ rank g)
    (hid : g₀.Relevant id) {w : Node.View} (hw : g.view? id = some w)
    (hop : w.op = .unary .negative) :
    ∃ x d, w.inputs = [x] ∧ g.desc? x = some d ∧ w.descs = [d] := by
  obtain ⟨ds, hds, hinfer⟩ := ht.reads hid hw
  rw [hop] at hinfer
  obtain ⟨d, rfl, -, hdescs⟩ := UnaryOp.infer_eq_ok.1 (show UnaryOp.infer ds = _ from hinfer)
  obtain ⟨x, l, ⟨hx, -⟩, hnil, hin⟩ := List.forall₂_cons_right_iff.1 hds
  obtain rfl := List.forall₂_nil_right_iff.1 hnil
  exact ⟨x, d, hin, hx, hdescs⟩

/-- A negation has a match. -/
theorem Negates.exists_match {τ : Typing} {rank : NodeId → Nat} (h : Negates g id)
    (ht : Graph.Typed g₀ τ rank g) (hid : g₀.Relevant id) :
    ∃ m, pattern.matchNode? g id = some m := by
  obtain ⟨w, d, hw, hop, hdescs, -⟩ := h
  obtain ⟨x, e, hin, hx, -⟩ := exists_operand ht hid hw hop
  have hdesc : g.desc? ⟨id, 0⟩ = some d := by
    rw [Graph.desc?_of_view? hw, hdescs]
    rfl
  exact Pattern.exists_match_unary ht.wellFormed hw (by rw [hop]; rfl) hin
    (Graph.hasOutput_of_desc? hdesc) (Graph.hasOutput_of_desc? hx)

/-- At a match the answer hangs on the type. -/
theorem changed_iff_negates {τ : Typing} {rank : NodeId → Nat} (ht : Graph.Typed g₀ τ rank g)
    (hid : g₀.Relevant id) {m : Match} (hm : pattern.matchNode? g id = some m)
    (hok : apply m g = .ok hit g') : hit = true ↔ Negates g id := by
  obtain ⟨-, n, hn, hroot⟩ := Pattern.root_of_matchNode? hm
  rw [ht.wellFormed.id_eq hn] at hroot
  obtain ⟨x, w, d, hw, hkind, hin, hx, hchanged, -⟩ := apply_eq_ok ht.wellFormed hm hok
  rw [hroot] at hw
  have hop : w.op = .unary .negative := Op.eq_unary_of_kind (ht.isBuiltIn hid hw) hkind
  obtain ⟨x', d', hin', hx', hdescs⟩ := exists_operand ht hid hw hop
  obtain rfl := List.singleton_injective (hin.symm.trans hin')
  obtain rfl := Option.some.inj (hx.symm.trans hx')
  rw [hchanged]
  constructor
  · exact fun hsigned => ⟨w, d, hw, hop, hdescs, hsigned⟩
  · rintro ⟨w', e, hw', -, hdescs', hsigned⟩
    obtain rfl := Option.some.inj (hw.symm.trans hw')
    obtain rfl := List.singleton_injective (hdescs.symm.trans hdescs')
    exact hsigned

theorem hit_iff_negates (h : g₀.Conserves s.graph) (hid : g₀.Relevant id)
    (happly : (rule : Rule σ).applyAt id s = .ok hit s') : hit = true ↔ Negates s.graph id := by
  obtain ⟨τ, rank, ht⟩ := h
  obtain ⟨hnone, rfl, -⟩ | ⟨m, s₁, hm, haction, -⟩ := applyAt_eq_ok happly
  · refine ⟨fun hfalse => (nomatch hfalse), fun hnegates => ?_⟩
    obtain ⟨m, hm⟩ := hnegates.exists_match ht hid
    cases hnone.symm.trans hm
  · obtain ⟨g', hedit, -⟩ := Action.edit_eq_ok.1 haction
    exact changed_iff_negates ht hid hm hedit

/-- Products and constants are no negations, and no other node becomes one. -/
theorem negates_release {m : Match} (hwf : g.WellFormed) (hm : pattern.matchNode? g id = some m)
    (hok : apply m g = .ok true g') (hq : Negates (g'.release m.visited) q) :
    q ≠ m.root.node ∧ Negates g q := by
  obtain ⟨x, w, d, hw, hkind, -, -, -, descs, hwf', hdiverts⟩ := apply_eq_ok hwf hm hok
  obtain ⟨v, e, hv, hop, hdescs, hsigned⟩ := hq
  obtain ⟨hstays, hv⟩ := (Graph.view?_release_eq_some hdiverts.wellFormed).1 hv
  constructor
  · rintro rfl
    have hne : g.product ≠ m.root.node := Nat.ne_of_gt (Nat.lt_succ_of_lt (Graph.lt_size_of_view? hw))
    exact hstays (hdiverts.expendable (fun _ _ _ _ => hne)
      (hwf'.internal (Graph.view?_scaled_of_view? hw) (by rw [hkind]; decide) (by rw [hkind]; decide))
      (Pattern.root_mem_visited hm))
  · rw [hdiverts.view_eq] at hv
    obtain ⟨u, hu, rfl⟩ := Option.map_eq_some_iff.1 hv
    rw [Graph.view?_scaled] at hu
    split at hu
    next =>
      obtain rfl := Option.some.inj hu
      cases hop
    next =>
      split at hu
      next =>
        obtain rfl := Option.some.inj hu
        cases hop
      next => exact ⟨u, e, hu, hop, hdescs, hsigned⟩

theorem settling_rule : (rule : Rule σ).Settling Negates where
  local_rule := local_rule
  frees := frees_rule
  conserving _ := Rule.conserving_ofEdit fun ht hid hm => ends_apply_of_typed ht hid hm
  hit_iff := hit_iff_negates
  after_hit := by
    intro g₀ s s' id q h hid happly hq
    obtain ⟨τ, rank, ht⟩ := h
    obtain ⟨m, g', hm, rfl, hedit, rfl⟩ := Rule.applyAt_ofEdit_eq_ok ht.wellFormed happly
    exact Or.inl (negates_release ht.wellFormed hm hedit hq)

end Negation

/-- The configuration of a rule steers the run, and not what the rule does at a node. -/
theorem run_rule_with_config (r : Rule σ) (config : TraversalConfig) (filter : PassFilter) :
    (Pass.rule { r with config }).run filter = runRules [r] config filter := by
  have hoffer (id : NodeId) : offer filter id [{ r with config }] = offer filter id [r] := rfl
  exact runRules_congr hoffer config

/-- **The conversion of negations and the fusion of multiplications reach their fixpoint in a single
traversal.**  From a graph with consistent descriptions every configuration leads to the same session and
the same answer, whether the traversal is repeated or not and whatever the bound, and a second run reports
no change and makes none. -/
theorem settles_in_one_traversal (hwf : g.WellFormed) (hacyclic : g.Acyclic) (hcons : g.Consistent)
    (hbuilt : ∀ id op, g.Reachable id → g.op? id = some op → op.isBuiltIn) {r : Rule σ}
    (hr : r ∈ [Negation.rule, MultiplyChain.rule]) (filter : PassFilter) (memory : σ) :
    ∃ changed s, (∀ config, (Pass.rule { r with config }).run filter ⟨g, memory⟩ = .ok changed s) ∧
      ∀ config, (Pass.rule { r with config }).run filter s = .ok false s := by
  have hsettling : ∃ fires, r.Settling fires := by
    rcases List.mem_pair.1 hr with rfl | rfl
    · exact ⟨_, Negation.settling_rule⟩
    · exact ⟨_, MultiplyChain.settling_rule⟩
  obtain ⟨fires, hsettling⟩ := hsettling
  obtain ⟨changed, s, hfirst, hsecond⟩ := exists_settled_traverse (s := ⟨g, memory⟩) hsettling hwf
    hacyclic hcons hbuilt filter
  -- the configuration of the rule steers the run, and not what the rule does at a node
  have hoffer (config : TraversalConfig) (id : NodeId) :
      offer filter id [{ r with config }] = offer filter id [r] := rfl
  have hrun (config : TraversalConfig) : (Pass.rule { r with config }).run filter =
      runRules [r] config filter := runRules_congr (hoffer config) config
  simp only [hrun]
  exact ⟨changed, s, runRules_of_settled hfirst hsecond, runRules_of_settled hsecond hsecond⟩

/-- A negation that is a result, once with a single traversal and once with at most three. -/
theorem settles_in_one_traversal_negatedPair :
    (∀ config ∈ [TraversalConfig.once, { maxIterations := 3 }],
      (Pass.rule { (Negation.rule : Rule Unit) with config }).run {} ⟨Graph.negatedPair, ()⟩ =
        .ok true ⟨Graph.negatedPairRewritten, ()⟩) ∧
      (Pass.rule Negation.rule).run {} (⟨Graph.negatedPairRewritten, ()⟩ : Session Unit) =
        .ok false ⟨Graph.negatedPairRewritten, ()⟩ := by
  have hbuilt (id : NodeId) (op : Op) (_ : Graph.negatedPair.Reachable id)
      (hop : Graph.negatedPair.op? id = some op) : op.isBuiltIn := by
    obtain rfl | rfl | rfl := Graph.op?_single hop <;> rfl
  obtain ⟨changed, s, hfirst, hsecond⟩ := settles_in_one_traversal (Graph.wellFormed_single _ _ _)
    (Graph.acyclic_single _ _ _) (Graph.consistent_single rfl) hbuilt List.mem_cons_self {} ()
  cases (hfirst {}).symm.trans Graph.run_negatedPair
  exact ⟨fun config _ => hfirst config, hsecond {}⟩

end OpGraph
