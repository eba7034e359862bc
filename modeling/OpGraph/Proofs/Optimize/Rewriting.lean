import OpGraph.Optimize.Folding
import OpGraph.Proofs.Graph.Rank
import OpGraph.Proofs.Graph.Single
import OpGraph.Proofs.Optimize.Identity
import OpGraph.Proofs.Optimize.MultiplyChain
import OpGraph.Proofs.Optimize.Negation
import OpGraph.Proofs.Semantics.Saturating

/-!
# Rewriting preserves what a graph computes

Negations become products, products with constants are combined, and operations without effect are
bypassed.  Each rule continues every trace, so a run of them does (`keeps_runRules_continues`), and with it
each pass (`Pass.keeps_run_continues`).  The trace of the graph that is rewritten has what its results read.

The main statement is `rewriting_preserves`.
-/

namespace OpGraph

variable {I : Interpretation} {inputs : NodeId → I.Value} {σ : Type}

/-- The rules of the standard passes. -/
def lawfulRules : List (Rule σ) :=
  [Negation.rule, MultiplyChain.rule, Identity.convertRule, Identity.multiplyRule, Identity.addRule]

/-- A standard pass is a run of lawful rules or the folding of constants. -/
theorem Pass.run_standard_cases {pass : Pass σ}
    (hpass : pass ∈ [.rule Negation.rule, .constantFolding, .rule MultiplyChain.rule,
      Identity.pass]) (filter : PassFilter) :
    (∃ (rules : List (Rule σ)) (config : TraversalConfig), (∀ r ∈ rules, r ∈ lawfulRules) ∧
      pass.run filter = runRules rules config filter) ∨
    pass.run filter = .edit Edit.foldConstants := by
  simp only [List.mem_cons, List.not_mem_nil, or_false] at hpass
  rcases hpass with rfl | rfl | rfl | rfl
  · exact Or.inl ⟨[Negation.rule], Negation.rule.config, by simp [lawfulRules], rfl⟩
  · exact Or.inr rfl
  · exact Or.inl ⟨[MultiplyChain.rule], MultiplyChain.rule.config, by simp [lawfulRules], rfl⟩
  · exact Or.inl ⟨[Identity.convertRule, Identity.multiplyRule, Identity.addRule], {},
      by simp [lawfulRules], rfl⟩

/-- **A run of rules that continue every trace continues it.** -/
theorem keeps_runRules_continues {results : List NodeId} {W : Trace (I.Value × Desc)}
    {rank : NodeId → Nat} (n : Nat) {rules : List (Rule σ)}
    (hrules : ∀ r ∈ rules, r.Respects
      (fun s => s.graph.Continues (I.setting inputs results) n W rank)
      (fun s => Edit.Anything s.graph)) (config : TraversalConfig) (filter : PassFilter) :
    Keeps (fun s => s.graph.Continues (I.setting inputs results) n W rank)
      (fun s => Edit.Anything s.graph) (runRules rules config filter) :=
  keeps_runRules (fun ids => Action.keeps_edit
    (Edit.keeps_release_of_hereditary (Graph.hereditary_continues n) ids))
    (fun id => Action.keeps_edit (Graph.keeps_revalidate_continues n id)) hrules config filter

/-- The rewriting passes continue every trace; only the combination of products makes products that may be
undefined. -/
theorem Pass.keeps_run_continues (hI : I.Lawful) {pass : Pass σ}
    (hdef : pass = .rule MultiplyChain.rule → I.CombinesProducts) {results : List NodeId}
    {W : Trace (I.Value × Desc)} {rank : NodeId → Nat} (n : Nat)
    (hpass : pass ∈ [.rule Negation.rule, .rule MultiplyChain.rule, Identity.pass])
    (filter : PassFilter) :
    Keeps (fun s => s.graph.Continues (I.setting inputs results) n W rank)
      (fun s => Edit.Anything s.graph) (pass.run filter) := by
  simp only [List.mem_cons, List.not_mem_nil, or_false] at hpass
  rcases hpass with rfl | rfl | rfl
  · exact keeps_runRules_continues n
      (List.forall_mem_singleton.2 (Negation.respects_rule hI n)) Negation.rule.config filter
  · exact keeps_runRules_continues n (List.forall_mem_singleton.2
      (MultiplyChain.respects_rule hI (hdef rfl) n)) MultiplyChain.rule.config filter
  · exact keeps_runRules_continues n (fun r hr => Identity.respects_rules hI n hr) {} filter

namespace Graph

variable {g : Graph}

/-- A graph of built-in operations with known ranks follows its trace of values and descriptions. -/
theorem follows_start_setting (hwf : g.WellFormed) (hcons : g.Consistent)
    {rank : NodeId → Nat} (hrank : ∀ p id, g.Produces p id → rank p < rank id)
    (hbuilt : ∀ id op, g.Reachable id → g.op? id = some op → op.isBuiltIn)
    (hranked : ∀ v d, g.Reachable v.node → g.desc? v = some d → d.shape.isRanked)
    (hsound : ∀ {id fr}, g.Reachable id → g.Fires (I.semantics inputs) id fr →
      fr.Sound I.Describes) :
    g.Follows (I.setting inputs g.results) (g.start (I.semantics inputs).described) rank := by
  refine follows_start hwf hcons hrank rfl ?_ ?_
  · intro id fr _ h
    rcases h with ⟨w, -, -, -, hfire⟩
    exact Semantics.sound_of_described hfire
  · intro id fr hr hfires
    refine ⟨?_, fun x hx => ?_⟩
    · exact hbuilt id fr.op hr hfires.op?_eq
    · obtain ⟨k, hk⟩ := List.mem_iff_getElem?.1 hx
      have hx : g.Computes (I.semantics inputs).described ⟨id, k⟩ x :=
        computes_iff.2 ⟨fr, hfires, hk⟩
      have hdesc := hx.desc?_eq hcons hr
      obtain ⟨d, hd, hdescribes, -⟩ := hx.of_described.described hcons hsound hr
      obtain rfl := Option.some.inj (hdesc.symm.trans hd)
      exact ⟨hranked _ _ hr hdesc, hdescribes⟩

/-- What a result reads passes through it. -/
theorem fires_result (hwf : g.WellFormed) (hcons : g.Consistent)
    (hbuilt : ∀ id op, g.Reachable id → g.op? id = some op → op.isBuiltIn) {r : NodeId}
    (hr : r ∈ g.results) {v : Output} (hv : g.source? ⟨r, 0⟩ = some v) {x : I.Value × Desc}
    (hx : g.Computes (I.semantics inputs).described v x) :
    g.Fires (I.semantics inputs).described r ⟨.result, [x], [x]⟩ := by
  obtain ⟨w, ds, hw, hds, hinfer⟩ := consistentAt_iff_view.1 (hcons r (.result hr))
  have hkind := hwf.kind_of_mem_results hr
  rw [kind?_eq_view, hw, Option.map_some, Option.some.injEq] at hkind
  have hop : w.op = .result :=
    Op.eq_result_of_kind (hbuilt r w.op (.result hr) (op?_of_view? hw)) hkind
  rw [hop] at hinfer
  obtain ⟨u, hin⟩ := List.length_eq_one_iff.1 (hds.length_eq.trans (Op.infer_result.1 hinfer).1)
  rw [source?_of_view? hw, hin] at hv
  obtain rfl := Option.some.inj hv
  refine ⟨w, hw, hop, ?_, Semantics.described_eq_some.2 ⟨rfl, rfl⟩⟩
  rw [hin]
  exact .cons hx .nil

end Graph

/-- **The rewriting passes preserve what a graph computes**, whatever the values are, as long as the
equations hold that the rules rest on, and for the combination of products, as long as there is one product
for two.  In a graph without cycles whose operations are built in, whose descriptions are up to date, and
whose ranks are known, the value that has arrived at a result arrives there after the pass. -/
theorem rewriting_preserves (hI : I.Lawful) {g : Graph} (hwf : g.WellFormed) (hacyclic : g.Acyclic)
    (hcons : g.Consistent)
    (hbuilt : ∀ id op, g.Reachable id → g.op? id = some op → op.isBuiltIn)
    (hranked : ∀ v d, g.Reachable v.node → g.desc? v = some d → d.shape.isRanked)
    (hin : g.AcceptsInputs I.Describes inputs) {pass : Pass σ}
    (hpass : pass ∈ [.rule Negation.rule, .rule MultiplyChain.rule, Identity.pass])
    (hdef : pass = .rule MultiplyChain.rule → I.CombinesProducts)
    {filter : PassFilter} {memory : σ} {changed : Bool} {s : Session σ}
    (hrun : pass.run filter ⟨g, memory⟩ = .ok changed s) :
    s.graph.results = g.results ∧ ∀ r ∈ g.results, ∀ a,
      g.Arrives (I.semantics inputs) r a → s.graph.Arrives (I.semantics inputs) r a := by
  obtain ⟨rank, hrank⟩ := Graph.exists_rank hwf hacyclic
  have hsound : ∀ {id fr}, g.Reachable id → g.Fires (I.semantics inputs) id fr →
      fr.Sound I.Describes := by
    intro id fr hr h
    have hop := h.op?_eq
    rcases h with ⟨w, -, -, -, hfire⟩
    exact hI.sound (hbuilt id _ hr hop) (fun type shape hp => hin id type shape hr (hp ▸ hop)) hfire
  have hstart := Graph.follows_start_setting hwf hcons hrank hbuilt hranked hsound
  have hend : s.graph.Continues (I.setting inputs g.results) g.nodes.size
      (g.start (I.semantics inputs).described) rank :=
    (Pass.keeps_run_continues hI hdef _ hpass filter).of_ok hstart.continues hrun
  refine ⟨hend.results_eq, ?_⟩
  intro r hr a h
  rcases h with ⟨v, hv, ha⟩
  have hreach : g.Reachable v.node := by
    refine (Graph.Reachable.result hr).producer (Graph.produces_iff_source.2 ?_)
    exact ⟨⟨r, 0⟩, v, rfl, hv, rfl⟩
  obtain ⟨d, -, -, hx⟩ := ha.described hcons hsound hreach
  have hW : g.start (I.semantics inputs).described r ⟨.result, [(a, d)], [(a, d)]⟩ :=
    ⟨.result hr, Graph.fires_result hwf hcons hbuilt hr hv hx⟩
  obtain ⟨u, hu, hx⟩ := (hend.arrives_iff (hstart.lt_size hW) hW hr).2 rfl
  exact ⟨u, hu, hx.of_described⟩

/-! ### A negated pair -/

namespace Graph

/-- A negation is a result. -/
def negatedPair : Graph :=
  single (.unary .negative) ⟨.i32, .ofShape [2]⟩ ⟨.i32, .ofShape [2]⟩

/-- The negation and what it reads. -/
def negatedPairMatch : Match := ⟨⟨1, 0⟩, ⟨[(0, ⟨0, 0⟩), (1, ⟨1, 0⟩)], [1, 0]⟩⟩

/-- The graph whose result has moved to the product. -/
def negatedPairMoved : Graph := endState (Negation.apply negatedPairMatch) negatedPair

/-- The graph at the end of the run. -/
def negatedPairRewritten : Graph := endState (Edit.revalidate 2) (negatedPairMoved.detach 1)

theorem release_negatedPairMoved : negatedPairMoved.release [1, 0] = negatedPairMoved.detach 1 := by
  have hparam : negatedPairMoved.isReleasable 0 = false := rfl
  have hroot : negatedPairMoved.isReleasable 1 = true := rfl
  have hparam' : (negatedPairMoved.detach 1).isReleasable 0 = false := rfl
  show negatedPairMoved.releaseStack [0, 1] = _
  rw [releaseStack, if_neg (by simp [hparam]), releaseStack, if_pos hroot]
  show (negatedPairMoved.detach 1).releaseStack [0] = _
  rw [releaseStack, if_neg (by simp [hparam']), releaseStack]

/-- The walk comes to the negation and puts the product in its place. -/
theorem walk_negatedPair :
    walk [Negation.rule] {} true [0, 1] false (⟨negatedPair, ()⟩ : Session Unit) =
      .ok true ⟨negatedPairMoved.detach 1, ()⟩ := by
  have hmatch₀ : Negation.pattern.matchNode? negatedPair 0 = none := by
    decide +kernel
  have hmatch₁ : Negation.pattern.matchNode? negatedPair 1 = some negatedPairMatch := by
    decide +kernel
  have hoffer₀ : offer {} 0 [Negation.rule] (⟨negatedPair, ()⟩ : Session Unit) =
      .ok false ⟨negatedPair, ()⟩ :=
    offer_of_unmatched fun r hr => List.mem_singleton.1 hr ▸ hmatch₀
  have haction : (Negation.rule : Rule Unit).action negatedPairMatch ⟨negatedPair, ()⟩ =
      .ok true ⟨negatedPairMoved, ()⟩ := rfl
  have happly : Negation.rule.applyAt 1 (⟨negatedPair, ()⟩ : Session Unit) =
      .ok true ⟨negatedPairMoved.release [1, 0], ()⟩ := applyAt_of_match hmatch₁ haction
  rw [release_negatedPairMoved] at happly
  have hoffer₁ : offer {} 1 [Negation.rule] (⟨negatedPair, ()⟩ : Session Unit) =
      .ok true ⟨negatedPairMoved.detach 1, ()⟩ := bind_eq_ok.2 ⟨true, _, happly, rfl⟩
  exact bind_eq_ok.2 ⟨_, _, rfl, bind_eq_ok.2 ⟨false, _, hoffer₀, bind_eq_ok.2 ⟨_, _, rfl,
    bind_eq_ok.2 ⟨true, _, hoffer₁, rfl⟩⟩⟩⟩

theorem order_negatedPair : negatedPair.order = [0, 1] ++ [2] := by
  decide +kernel

theorem traverse_negatedPair :
    traverse [Negation.rule] {} true (⟨negatedPair, ()⟩ : Session Unit) =
      .ok true ⟨negatedPairRewritten, ()⟩ := by
  have hmatch₂ : Negation.pattern.matchNode? negatedPairRewritten 2 = none := by
    decide +kernel
  have hoffer₂ : offer {} 2 [Negation.rule] (⟨negatedPairRewritten, ()⟩ : Session Unit) =
      .ok false ⟨negatedPairRewritten, ()⟩ :=
    offer_of_unmatched fun r hr => List.mem_singleton.1 hr ▸ hmatch₂
  have hwalk₂ : walk [Negation.rule] {} true [2] true
      (⟨negatedPairMoved.detach 1, ()⟩ : Session Unit) = .ok true ⟨negatedPairRewritten, ()⟩ :=
    bind_eq_ok.2 ⟨_, _, rfl, bind_eq_ok.2 ⟨false, ⟨negatedPairRewritten, ()⟩, rfl,
      bind_eq_ok.2 ⟨false, _, hoffer₂, rfl⟩⟩⟩
  show walk [Negation.rule] {} true negatedPair.order false (⟨negatedPair, ()⟩ : Session Unit) = _
  rw [order_negatedPair, walk_append]
  exact bind_eq_ok.2 ⟨true, _, walk_negatedPair, hwalk₂⟩

theorem traverse_negatedPairRewritten :
    traverse [Negation.rule] {} true (⟨negatedPairRewritten, ()⟩ : Session Unit) =
      .ok false ⟨negatedPairRewritten, ()⟩ := by
  have horder : negatedPairRewritten.order = [0, 3, 4, 2] := by decide +kernel
  have hmatch : ∀ id ∈ [0, 3, 4, 2],
      Negation.pattern.matchNode? negatedPairRewritten id = none := by
    simp only [List.mem_cons, List.not_mem_nil, or_false]
    rintro id (rfl | rfl | rfl | rfl) <;> decide +kernel
  show walk [Negation.rule] {} true negatedPairRewritten.order false _ = _
  rw [horder]
  exact walk_of_unmatched fun id hid r hr => List.mem_singleton.1 hr ▸ hmatch id hid

theorem run_negatedPair :
    (Pass.rule Negation.rule).run {} (⟨negatedPair, ()⟩ : Session Unit) =
      .ok true ⟨negatedPairRewritten, ()⟩ :=
  bind_eq_ok.2 ⟨true, _, traverse_negatedPair,
    bind_eq_ok.2 ⟨false, _, traverse_negatedPairRewritten, rfl⟩⟩

/-- Two integers. -/
def pair (m n : Int) : IntTensor := .ofFn ⟨.i32, [2], rfl⟩ fun idx => if idx = [0] then m else n

theorem ofFn_neg_pair :
    IntTensor.ofFn (pair 5 (-7)).toExactShape (fun idx => -(pair 5 (-7)).number idx) =
      pair (-5) 7 := by
  refine IntTensor.ofFn_congr fun idx hidx => ?_
  have hnumber : (pair 5 (-7)).number idx = ElementType.clip .i32 (if idx = [0] then 5 else -7) :=
    IntTensor.number_ofFn hidx
  rw [hnumber]
  by_cases h : idx = [0]
  · rw [if_pos h, if_pos h]
    rfl
  · rw [if_neg h, if_neg h]
    rfl

/-- The negated pair arrives after the run, as it did before. -/
theorem rewriting_preserves_negatedPair :
    ∃ s : Session Unit,
      (Pass.rule Negation.rule).run {} (⟨negatedPair, ()⟩ : Session Unit) = .ok true s ∧
        s.graph.results = [2] ∧
        s.graph.Arrives (Interpretation.saturating.semantics fun _ => pair 5 (-7)) 2
          (pair (-5) 7) := by
  have hbuilt (id : NodeId) (op : Op) (hr : negatedPair.Reachable id)
      (hop : negatedPair.op? id = some op) : op.isBuiltIn := by
    obtain rfl | rfl | rfl := op?_single hop <;> rfl
  have hranked (v : Output) (d : Desc) (hr : negatedPair.Reachable v.node)
      (hd : negatedPair.desc? v = some d) : d.shape.isRanked := by
    obtain rfl | rfl := desc?_single hd <;> rfl
  have hin : negatedPair.AcceptsInputs Interpretation.saturating.Describes
      fun _ => pair 5 (-7) := by
    intro id type shape hr hp
    obtain hp | hp | hp := op?_single hp <;> cases hp
    exact Interpretation.describes_of_desc_eq rfl
  obtain ⟨hresults, harrives⟩ := rewriting_preserves Interpretation.lawful_saturating
    (wellFormed_single _ _ _) (acyclic_single _ _ _) (consistent_single rfl) hbuilt hranked hin
    List.mem_cons_self (fun _ => Interpretation.combinesProducts_saturating) run_negatedPair
  have hparam : negatedPair.Fires (Interpretation.saturating.semantics fun _ => pair 5 (-7)) 0
      ⟨.parameter .i32 (.ofShape [2]), [], [pair 5 (-7)]⟩ := ⟨_, rfl, rfl, .nil, rfl⟩
  have hnegated : negatedPair.Fires (Interpretation.saturating.semantics fun _ => pair 5 (-7)) 1
      ⟨.unary .negative, [pair 5 (-7)], [pair (-5) 7]⟩ :=
    ⟨_, rfl, rfl, .cons (computes_iff.2 ⟨_, hparam, rfl⟩) .nil,
      congrArg (fun v => some [v]) ofFn_neg_pair⟩
  exact ⟨_, run_negatedPair, hresults, harrives 2 (List.mem_singleton.2 rfl) _
    ⟨⟨1, 0⟩, rfl, computes_iff.2 ⟨_, hnegated, rfl⟩⟩⟩

end Graph

end OpGraph
