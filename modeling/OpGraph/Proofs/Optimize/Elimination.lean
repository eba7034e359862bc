import Mathlib.Data.Set.Card
import OpGraph.Proofs.Optimize.Progress
import OpGraph.Proofs.Rule.Convergence

/-!
# The elimination of operations without effect comes to an end

The rules look at conversions, products and sums, and where one of them reports a change the node is
bypassed and gone.  What reads the node reads then what the node has read, so the boundary hangs on nothing
new.  A traversal that changes something therefore leaves fewer candidates on which the boundary hangs:
there is one less after the first change (`Identity.shrinks_of_applyAt`), and not one more after the others,
which may be made at nodes that the boundary does not hang on any more.

Neither the descriptions nor cycles matter for this, so the elimination reaches its fixpoint on every
well-formed graph that has no more candidates than the run has traversals (`Identity.elimination_converges`).
-/

namespace OpGraph

variable {σ : Type} {g g' : Graph} {root id : NodeId} {s s' : Session σ} {rules : List (Rule σ)}

/-! ### What the boundary hangs on -/

namespace Graph

/-- The boundary hangs on nothing new if what its nodes read, it has hung on before. -/
theorem Reachable.of_produces (hparameters : g'.parameters = g.parameters)
    (hresults : g'.results = g.results)
    (hreads : ∀ {p c}, g'.Produces p c → g.Reachable c → g.Reachable p) (hid : g'.Reachable id) :
    g.Reachable id := by
  induction hid with
  | parameter hp => exact .parameter (hparameters ▸ hp)
  | result hr => exact .result (hresults ▸ hr)
  | producer _ hp ih => exact hreads hp ih

theorem Restricts.reachable (h : g'.Restricts g) (hid : g'.Reachable id) : g.Reachable id :=
  hid.of_produces h.parameters_eq h.results_eq fun hp hc => hc.producer (h.produces hp)

theorem reachable_of_withDescs {outs : List Desc} {j : NodeId}
    (hid : (g.modifyNode j (·.withDescs outs)).Reachable id) : g.Reachable id := by
  have hparameters : (g.modifyNode j (·.withDescs outs)).parameters = g.parameters := rfl
  have hresults : (g.modifyNode j (·.withDescs outs)).results = g.results := rfl
  exact hid.of_produces hparameters hresults fun hp hc => hc.producer (produces_withDescs.1 hp)

/-- Readers may move to what the node reads itself. -/
theorem Diverts.reachable {source : Output} (h : g.Diverts root (fun _ => source) g')
    (hsource : g.Produces source.node root) (hid : g'.Reachable id) : g.Reachable id := by
  refine hid.of_produces h.parameters_eq h.results_eq fun {p c} hp hc => ?_
  obtain ⟨i, v, rfl, hv, rfl⟩ := produces_iff_source.1 hp
  rw [h.source?_eq] at hv
  obtain ⟨u, hu, rfl⟩ := Option.map_eq_some_iff.1 hv
  have hread := hc.producer (produces_of_source? hu)
  rw [divert]
  split
  next hroot => exact (hroot ▸ hread).producer hsource
  next => exact hread

end Graph

namespace Identity

/-! ### Candidates -/

/-- The conversions, products and sums that the boundary hangs on. -/
def candidates (g : Graph) : Set NodeId :=
  {id | g.Reachable id ∧ ∃ w, g.view? id = some w ∧ w.op.kind ∈ [Kind.convert, .multiply, .add]}

theorem finite_candidates (g : Graph) : (candidates g).Finite :=
  (Set.finite_lt_nat g.nodes.size).subset fun _ ⟨_, _, hw, _⟩ => Graph.lt_size_of_view? hw

/-- There are no new candidates if operations stay and the boundary hangs on nothing new. -/
theorem candidates_subset (hreach : ∀ {id}, g'.Reachable id → g.Reachable id)
    (hops : ∀ {id w}, g'.view? id = some w → ∃ u, g.view? id = some u ∧ u.op = w.op) :
    candidates g' ⊆ candidates g := by
  rintro id ⟨hid, w, hw, hkind⟩
  obtain ⟨u, hu, hop⟩ := hops hw
  exact ⟨hreach hid, u, hu, hop ▸ hkind⟩

theorem candidates_subset_of_restricts (h : g'.Restricts g) : candidates g' ⊆ candidates g :=
  candidates_subset h.reachable fun hw => ⟨_, h.view_eq hw, rfl⟩

theorem candidates_withDescs_subset (g : Graph) (id : NodeId) (outs : List Desc) :
    candidates (g.modifyNode id (·.withDescs outs)) ⊆ candidates g := by
  refine candidates_subset Graph.reachable_of_withDescs fun {j w} hw => ?_
  obtain ⟨n, hn, rfl⟩ := Graph.view?_eq_some.1 hw
  rw [Graph.node?_modifyNode] at hn
  split at hn
  · obtain ⟨m, hm, rfl⟩ := Option.map_eq_some_iff.1 hn
    exact ⟨m.view, Graph.view?_eq_some.2 ⟨m, hm, rfl⟩, rfl⟩
  · exact ⟨n.view, Graph.view?_eq_some.2 ⟨n, hn, rfl⟩, rfl⟩

/-- A conversion, product or sum that is bypassed is no candidate any more, and no other node becomes one. -/
theorem candidates_of_bypass (hwf : g.WellFormed) {w : Node.View} (hw : g.view? root = some w)
    (hkind : w.op.kind ∈ [Kind.convert, .multiply, .add]) {index : Nat}
    (h : Edit.bypass root index g = .ok true g') :
    candidates g' ⊆ candidates g ∧ root ∉ candidates g' := by
  obtain ⟨source, g₁, hsource, hdiverts, rfl⟩ := Edit.bypass_eq_ok hwf h
  have hkinds : ∀ k ∈ [Kind.convert, .multiply, .add], k ≠ .parameter ∧ k ≠ .result := by decide
  obtain ⟨hp, hr⟩ := hkinds _ hkind
  have hgone := hdiverts.expendable (fun _ _ _ _ => (hwf.source_exists hsource).1)
    (hwf.internal hw hp hr) (List.mem_singleton_self root)
  have hmoved : candidates g₁ ⊆ candidates g := by
    refine candidates_subset (hdiverts.reachable (Graph.produces_of_source? hsource)) fun {q w} hq => ?_
    rw [hdiverts.view_eq] at hq
    obtain ⟨u, hu, rfl⟩ := Option.map_eq_some_iff.1 hq
    exact ⟨u, hu, rfl⟩
  have hreleased := Graph.restricts_releaseStack hdiverts.wellFormed [root].reverse
  refine ⟨(candidates_subset_of_restricts hreleased).trans hmoved, fun hroot => ?_⟩
  obtain ⟨-, u, hu, -⟩ := hroot
  exact ((Graph.view?_release_eq_some hdiverts.wellFormed).1 hu).1 hgone

/-! ### The rules -/

/-- A rule matches at conversions, products or sums, and where it reports a change it has bypassed the
root. -/
theorem eq_ofEdit_of_mem {r : Rule σ} (hr : r ∈ [convertRule, multiplyRule, addRule]) :
    ∃ name pattern action, r = .ofEdit name pattern action ∧
      (∀ {g : Graph} {id : NodeId} {m : Match}, g.WellFormed → pattern.matchNode? g id = some m →
        m.root.node = id ∧ ∃ w, g.view? id = some w ∧ w.op.kind ∈ [Kind.convert, .multiply, .add]) ∧
      ∀ {g g' : Graph} {m : Match}, action m g = .ok true g' →
        ∃ index, Edit.bypass m.root.node index g = .ok true g' := by
  have hroot {g : Graph} {id : NodeId} {m : Match} {pattern : Pattern} (hwf : g.WellFormed)
      (hm : pattern.matchNode? g id = some m) : m.root.node = id := by
    obtain ⟨-, n, hn, hroot⟩ := Pattern.root_of_matchNode? hm
    rwa [hwf.id_eq hn] at hroot
  have hofKind {k : Kind} (hk : k ∈ [Kind.convert, .multiply, .add]) {g : Graph} {id : NodeId}
      {m : Match} (hwf : g.WellFormed) (hm : (Pattern.ofKind k).matchNode? g id = some m) :
      m.root.node = id ∧ ∃ w, g.view? id = some w ∧ w.op.kind ∈ [Kind.convert, .multiply, .add] := by
    obtain ⟨w, hw, rfl⟩ := Pattern.view?_of_match_ofKind hm
    exact ⟨hroot hwf hm, w, hroot hwf hm ▸ hw, hk⟩
  simp only [List.mem_cons, List.not_mem_nil, or_false] at hr
  rcases hr with rfl | rfl | rfl
  · refine ⟨_, _, _, rfl, fun hwf hm => ?_, bypass_of_bypassConversion⟩
    obtain ⟨-, w, -, hw, hkind, -⟩ := Pattern.view?_of_match_unary hm
    exact ⟨hroot hwf hm, w, hroot hwf hm ▸ hw, by simp [hkind]⟩
  · exact ⟨_, _, _, rfl, hofKind (by decide), bypass_of_bypassOperation⟩
  · exact ⟨_, _, _, rfl, hofKind (by decide), bypass_of_bypassOperation⟩

/-- **Where a rule reports a change, the node is a candidate no more, and no other node becomes one.** -/
theorem shrinks_of_applyAt {r : Rule σ} (hr : r ∈ [convertRule, multiplyRule, addRule]) {hit : Bool}
    (hwf : s.graph.WellFormed) (h : r.applyAt id s = .ok hit s') :
    if hit then s'.graph.WellFormed ∧ candidates s'.graph ⊆ candidates s.graph ∧
      id ∉ candidates s'.graph ∧ ∃ w, s.graph.view? id = some w ∧
        w.op.kind ∈ [Kind.convert, .multiply, .add]
    else s' = s := by
  have hlocal : r.Local :=
    Rule.local_of_mem_lawfulRules (List.mem_cons_of_mem _ (List.mem_cons_of_mem _ hr))
  obtain ⟨name, pattern, action, rfl, hkind, hbypass⟩ := eq_ofEdit_of_mem hr
  obtain ⟨-, rfl, rfl⟩ | ⟨m, s₁, hm, haction, rfl⟩ := applyAt_eq_ok h
  · rfl
  have hchange := hlocal hwf hm haction
  obtain ⟨g', hok, rfl⟩ := Action.edit_eq_ok.1 haction
  cases hit with
  | false =>
    obtain rfl : g' = s.graph := hchange
    rfl
  | true =>
    obtain ⟨rfl, w, hw, hk⟩ := hkind hwf hm
    obtain ⟨index, hok⟩ := hbypass hok
    obtain ⟨hsub, hgone⟩ := candidates_of_bypass hwf hw hk hok
    have hwf' : g'.WellFormed := (Edit.invariant_wellFormed.keeps_bypass _ index).of_ok hwf hok
    have hreleased := Graph.restricts_releaseStack hwf' m.visited.reverse
    have hfewer := candidates_subset_of_restricts hreleased
    exact ⟨hreleased.wellFormed, hfewer.trans hsub, fun hid => hgone (hfewer hid), w, hw, hk⟩

/-! ### Traversals -/

/-- **A traversal that changes something leaves fewer candidates.** -/
theorem reports_traverse_candidates (hrules : ∀ r ∈ rules, r ∈ [convertRule, multiplyRule, addRule])
    (filter : PassFilter) (inference : Bool) :
    Reports (fun s : Session σ => s.graph.WellFormed)
      (fun s s' => (candidates s'.graph).ncard < (candidates s.graph).ncard)
      (traverse rules filter inference) := by
  refine reports_traverse_of_first (fun id => ?_) (fun r hr id => ?_) (fun r hr id s s' hwf hid h => ?_)
    filter inference
  · intro s b s₁ hwf hre
    obtain ⟨g', hok, rfl⟩ := Action.edit_eq_ok.1 hre
    have hwf' : g'.WellFormed := (Edit.invariant_wellFormed.keeps_revalidate id).of_ok hwf hok
    obtain ⟨err, he⟩ | ⟨outs, b', -, hok'⟩ := Edit.revalidate_cases id s.graph
    · cases he.symm.trans hok
    obtain ⟨-, rfl⟩ := EStateM.Result.ok.inj (hok'.symm.trans hok)
    have hle := Set.ncard_le_ncard (candidates_withDescs_subset s.graph id outs)
      (finite_candidates s.graph)
    exact ⟨hwf', fun s₀ => hle.trans⟩
  · intro s hit s' hwf h
    have hshrinks := shrinks_of_applyAt (hrules r hr) hwf h
    cases hit with
    | false =>
      obtain rfl : s' = s := hshrinks
      exact ⟨hwf, .start s'⟩
    | true =>
      obtain ⟨hwf', hsub, -⟩ := hshrinks
      exact ⟨hwf', Set.ncard_le_ncard hsub (finite_candidates s.graph)⟩
  · obtain ⟨-, hsub, hgone, hcandidate⟩ := shrinks_of_applyAt (hrules r hr) hwf h
    refine Set.ncard_lt_ncard (hsub.ssubset_of_ne fun heq => hgone ?_) (finite_candidates s.graph)
    exact heq ▸ ⟨hid, hcandidate⟩

/-- Where there is no candidate, no rule looks at a node. -/
theorem exists_traverse_of_no_candidates (hrules : ∀ r ∈ rules, r ∈ [convertRule, multiplyRule, addRule])
    (filter : PassFilter) (inference : Bool) (hwf : s.graph.WellFormed)
    (hnone : (candidates s.graph).ncard = 0) :
    ∃ b s', traverse rules filter inference s = .ok b s' := by
  have hempty := (Set.ncard_eq_zero (finite_candidates s.graph)).1 hnone
  refine ⟨false, s, walk_of_unmatched fun id hid r hr => ?_⟩
  by_contra hmatch
  obtain ⟨m, hm⟩ := Option.ne_none_iff_exists'.1 hmatch
  obtain ⟨name, pattern, action, rfl, hkind, -⟩ := eq_ofEdit_of_mem (hrules r hr)
  obtain ⟨-, hcandidate⟩ := hkind hwf hm
  exact Set.eq_empty_iff_forall_notMem.1 hempty id ⟨Graph.reachable_of_mem_order hid, hcandidate⟩

/-- **The elimination reaches its fixpoint within its bound on traversals.**  The rules may be listed in any
order, and the graph may have cycles and descriptions that are not up to date.  If the boundary hangs on no
more conversions, products and sums than a run to the fixpoint has traversals, the next run changes
nothing. -/
theorem elimination_converges (hwf : g.WellFormed)
    (hrules : rules.Perm [convertRule, multiplyRule, addRule]) {config : TraversalConfig}
    (hfixpoint : config.runToFixpoint) (hsize : (candidates g).ncard ≤ max 1 config.maxIterations)
    {name : String} {filter : PassFilter} {memory : σ} {changed : Bool}
    (hrun : (Pass.group name rules config).run filter ⟨g, memory⟩ = .ok changed s) :
    (Pass.group name rules config).run filter s = .ok false s :=
  have hmem : ∀ r ∈ rules, r ∈ [convertRule, multiplyRule, addRule] := fun _ hr => hrules.mem_iff.1 hr
  runRules_of_dwindling hfixpoint (reports_traverse_candidates hmem filter _)
    (exists_traverse_of_no_candidates hmem filter _) hwf hsize hrun

/-! ### Two conversions -/

/-- A negation that is converted twice to the type that it has. -/
def twiceConverted : Graph :=
  let d : Desc := ⟨.f64, .ofShape [0]⟩
  ((((({ name := "twice" } : Graph).insert (.parameter .f64 (.ofShape [0])) [] [d]).insert
    (.unary .negative) [⟨0, 0⟩] [d]).insert (.convert .f64) [⟨1, 0⟩] [d]).insert (.convert .f64)
      [⟨2, 0⟩] [d]).insert .result [⟨3, 0⟩] [d]

theorem wellFormed_twiceConverted : twiceConverted.WellFormed := by
  refine Graph.wellFormed_insert_singleton (Graph.wellFormed_insert_singleton
    (Graph.wellFormed_insert_singleton (Graph.wellFormed_insert_singleton
      (Graph.wellFormed_insert (Graph.wellFormed_empty _) (by simp)) ⟨_, rfl⟩) ⟨_, rfl⟩) ⟨_, rfl⟩)
        ⟨_, rfl⟩

theorem ncard_candidates_twiceConverted : (candidates twiceConverted).ncard ≤ 2 := by
  have hsub : candidates twiceConverted ⊆ {2, 3} := by
    rintro id ⟨-, w, hw, hkind⟩
    match id, Graph.lt_size_of_view? hw with
    | 2, _ => exact Or.inl rfl
    | 3, _ => exact Or.inr rfl
    | 0, _ | 1, _ | 4, _ =>
      obtain rfl := Option.some.inj hw
      exact absurd hkind (by decide)
  calc (candidates twiceConverted).ncard ≤ ({2, 3} : Set NodeId).ncard := Set.ncard_le_ncard hsub
    _ = 2 := Set.ncard_pair (by decide)

/-- With two traversals both conversions go, and the next run finds nothing. -/
theorem elimination_converges_twiceConverted :
    (twiceConverted.WellFormed ∧ (candidates twiceConverted).ncard ≤ 2) ∧
      ∃ s : Session Unit,
        (Pass.group "NopElimination" [addRule, convertRule, multiplyRule] { maxIterations := 2 }).run {}
          (⟨twiceConverted, ()⟩ : Session Unit) = .ok true s ∧ s.graph.ids = [0, 1, 4] ∧
        (Pass.group "NopElimination" [addRule, convertRule, multiplyRule] { maxIterations := 2 }).run {} s =
          .ok false s := by
  obtain ⟨s, hrun, hids⟩ : ∃ s : Session Unit,
      (Pass.group "NopElimination" [addRule, convertRule, multiplyRule] { maxIterations := 2 }).run {}
        (⟨twiceConverted, ()⟩ : Session Unit) = .ok true s ∧ s.graph.ids = [0, 1, 4] :=
    ⟨_, by with_unfolding_all rfl, by decide +kernel⟩
  have hperm : [addRule, convertRule, multiplyRule].Perm
      ([convertRule, multiplyRule, addRule] : List (Rule Unit)) :=
    (List.Perm.swap convertRule addRule [multiplyRule]).trans
      ((List.Perm.swap multiplyRule addRule []).cons convertRule)
  exact ⟨⟨wellFormed_twiceConverted, ncard_candidates_twiceConverted⟩, s, hrun, hids,
    elimination_converges wellFormed_twiceConverted hperm rfl (by exact ncard_candidates_twiceConverted)
      hrun⟩

end Identity

end OpGraph
