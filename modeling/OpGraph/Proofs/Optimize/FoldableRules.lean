import OpGraph.Proofs.Op.Evaluation
import OpGraph.Proofs.Optimize.Pipeline
import OpGraph.Proofs.Optimize.Renewal
import OpGraph.Proofs.Rule.Convergence

/-!
# Rules bring up nothing to fold

A node that reads constants only is foldable unless its result is too large to be addressed
(`Typed.foldable_of_constants`).  So where nothing is foldable, the value that a node is bypassed to is no
constant (`Identity.Bypasses.not_constant`), and neither is the data of a chain that
is fused (`MultiplyChain.Fuses.not_constant`).  The descriptions stay, so what moves readers from one node
to another makes none of them foldable.
-/

namespace OpGraph

open OpGraph.Graph (Foldable)

variable {g₀ g g' g₁ : Graph} {τ : Typing} {rank : NodeId → Nat} {root id q : NodeId}

/-- The operations that compute tensors from tensors: the elementwise ones, the conversion and the
combination of parts. -/
def Op.isComputed : Op → Bool
  | binary .. | unary _ | concat _ | convert _ => true
  | _ => false

theorem Op.evaluable_of_isComputed {op : Op} (h : op.isComputed) :
    op.isEvaluable ∧ op ≠ .shapeOf ∧ op.kind ∉ [Kind.parameter, .result, .constant] := by
  have hbinary : ∀ k : BinaryOp, k.kind ∉ [Kind.parameter, .result, .constant] := by
    intro k
    cases k <;> decide
  have hunary : ∀ k : UnaryOp, k.kind ∉ [Kind.parameter, .result, .constant] := by
    intro k
    cases k <;> decide
  cases op with
  | binary op rule => exact ⟨rfl, nofun, hbinary op⟩
  | unary op => exact ⟨rfl, nofun, hunary op⟩
  | concat axis => exact ⟨rfl, nofun, show Kind.concat ∉ _ by decide⟩
  | convert destination => exact ⟨rfl, nofun, show Kind.convert ∉ _ by decide⟩
  | _ => cases h

theorem Op.isComputed_of_kind {op : Op} (hop : op.isBuiltIn)
    (h : op.kind ∈ [Kind.convert, .multiply, .add]) : op.isComputed := by
  have hnot : ∀ k ∈ [Kind.convert, .multiply, .add],
      k ∉ [Kind.parameter, .constant, .result, .shapeOf, .convolution, .maxPool] := by decide
  have hkind := hnot op.kind h
  cases op with
  | binary op rule => rfl
  | unary op => rfl
  | concat axis => rfl
  | convert destination => rfl
  | extension e => cases hop
  | _ => exact absurd (by simp [kind]) hkind

namespace Graph.Typed

variable (ht : Typed g₀ τ rank g)

include ht

/-- **A node that reads constants only is foldable**, unless its result is too large. -/
theorem foldable_of_constants (hid : g₀.Relevant id) {w : Node.View} (hw : g.view? id = some w)
    (hop : w.op.isComputed) {ts : List Tensor}
    (hts : List.Forall₂ (fun v t => g.constantValue? v = some t) w.inputs ts) :
    g.Foldable id ∨
      ∃ d s, w.op.infer (ts.map Tensor.desc) = .ok [d] ∧ w.descs = [d] ∧ d.shape = .ofShape s ∧
        s.addressable = false := by
  have hbuilt := ht.isBuiltIn hid hw
  obtain ⟨hop, hshape, hkind⟩ := Op.evaluable_of_isComputed hop
  obtain ⟨ds, hds, hinfer⟩ := ht.reads hid hw
  have hdescs : List.Forall₂ (fun v d => g.desc? v = some d) w.inputs ds := hds.imp fun _ _ h => h.1
  have hconsistent : ∀ v ∈ w.inputs, g.ConsistentAt v.node := fun v hv => by
    obtain ⟨d, -, hd, hrel, -⟩ := forall₂_exists_of_mem hds hv
    exact ht.consistentAt hrel (contains_of_desc? hd)
  have hknown : List.Forall₂ (fun x t => x = some t) (w.inputs.map g.constantValue?) ts :=
    List.forall₂_map_left_iff.2 hts
  rw [eq_map_desc_of_allKnown hconsistent hdescs (mapM_eq_some.2 hknown)] at hinfer
  obtain ⟨d, hd, s, hs, ⟨t, heval, -⟩ | ⟨-, hlarge⟩⟩ := Op.agrees_evaluate hop hinfer
  · exact Or.inl (foldable_iff.2 ⟨w, ds, [t], hw, hkind, hdescs,
      (Op.fold_eq_some hbuilt hshape).2 ⟨ts, hknown, heval⟩, by rw [hd]; rfl⟩)
  · exact Or.inr ⟨d, s, hd ▸ hinfer, hd, hs, hlarge⟩

end Graph.Typed

/-! ### Bypassed nodes -/

namespace Identity.Bypasses

variable {source : Output}

/-- **A node that reads constants only is not bypassed** where it would have been folded. -/
theorem not_constant (h : Bypasses g id source g₁ g') (ht : Graph.Typed g₀ τ rank g)
    (hid : g₀.Relevant id) (hfoldable : ¬ g.Foldable id) : g.constantValue? source = none := by
  by_contra hsome
  obtain ⟨t, hsource⟩ := Option.ne_none_iff_exists'.1 hsome
  obtain ⟨w, d, hw, hkind, hmem, hd, hdescs, hrest⟩ := h.exists_view
  have hall : ∀ v ∈ w.inputs, ∃ u, g.constantValue? v = some u := fun v hv => by
    rcases hrest v hv with rfl | hv
    exacts [⟨t, hsource⟩, hv]
  obtain ⟨ts, hts⟩ := exists_forall₂ hall
  have hop := Op.isComputed_of_kind (ht.isBuiltIn hid hw) hkind
  obtain hold | ⟨e, s, -, he, hs, hlarge⟩ := ht.foldable_of_constants hid hw hop hts
  · exact hfoldable hold
  -- the result is too large, and it has the description of the constant
  obtain rfl := List.singleton_injective (hdescs.symm.trans he)
  have hrel := ht.relevant hid hw source hmem
  obtain rfl := Graph.desc?_of_constantValue? (ht.consistentAt hrel (Graph.contains_of_desc? hd))
    hsource hd
  obtain rfl : t.shape = s := PartialShape.ofShape_injective hs
  rw [t.addressable] at hlarge
  cases hlarge

/-- **What is foldable after a node has been bypassed has been foldable before.** -/
theorem foldable (h : Bypasses g id source g₁ g') (ht : Graph.Typed g₀ τ rank g)
    (hid : g₀.Relevant id) (hfoldable : ¬ g.Foldable id) (hq : g₀.Relevant q)
    (hfold : g'.Foldable q) : g.Foldable q := by
  refine h.diverts.foldable (h.restricts.foldable hfold) (fun w hw => ht.isBuiltIn hq hw) ?_
  intro i v hi hnode hv
  refine ⟨?_, h.not_constant ht hid hfoldable⟩
  obtain ⟨w, d, hw, -, -, hd, hdescs, -⟩ := h.exists_view
  obtain ⟨e, he⟩ := Graph.exists_targets?_iff.1 (ht.wellFormed.source_exists hi).2
  rw [hd, he]
  rw [Graph.desc?_of_view? (hv ▸ hw), hdescs] at he
  rw [List.mem_singleton.1 (List.mem_of_getElem? he)]

end Identity.Bypasses

/-! ### Fused chains -/

namespace MultiplyChain.Fuses

variable {x y c₁ c₂ : Output} {rule : Broadcast} {a b t : Tensor} {descs : List Desc}
  {ids : List NodeId} (h : Fuses g root x y c₁ c₂ rule a b t descs ids g')
  (ht : Graph.Typed g₀ τ rank g) (hroot : g₀.Relevant root)

include h ht hroot

/-- The inner product of a chain would have been folded if the data were constant. -/
theorem foldable_inner {u : Tensor} {s : Shape} (hx : g.constantValue? x = some u)
    (hs : u.shape.broadcast t.shape = some s) : g₀.Relevant y.node ∧ g.Foldable y.node := by
  obtain ⟨outs, houter⟩ := h.chain.outer
  obtain ⟨ins, hinner⟩ := h.chain.inner
  have hrel : g₀.Relevant y.node := ht.relevant hroot houter y List.mem_cons_self
  refine ⟨hrel, ?_⟩
  obtain hold | ⟨d, s, hinfer, -, hd, hlarge⟩ := ht.foldable_of_constants hrel hinner
    (show Op.isComputed (.binary .multiply rule) from rfl) (.cons hx (.cons h.chain.first .nil))
  · exact hold
  -- the data combines with both constants, so it combines with the first one
  obtain ⟨r, hr⟩ := Shape.exists_broadcast_of_combined h.combined hs
  obtain ⟨type, s', -, -, hshape, hout⟩ := BinaryOp.infer_exact_eq_ok.1
    (show BinaryOp.infer rule [.exact _ _, .exact _ _] = _ from hinfer)
  obtain rfl := List.singleton_injective hout
  obtain rfl : s' = s := PartialShape.ofShape_injective hd
  rw [Broadcast.addressable_of_shape? hshape hr] at hlarge
  cases hlarge

/-- The product has the descriptions of the root. -/
theorem descs_eq : ∃ w, g.view? root = some w ∧ w.descs = descs := by
  obtain ⟨d, v, out, hd, hv, hout, haccepted⟩ := h.accepted
  obtain ⟨outs, houter⟩ := h.chain.outer
  obtain ⟨ds, -, hinfer⟩ := ht.reads hroot houter
  obtain ⟨o, rfl⟩ := Op.infer_singleton (ht.isBuiltIn hroot houter) hinfer
  rw [Graph.desc?_of_view? (hv ▸ houter)] at hout
  obtain rfl := List.mem_singleton.1 (List.mem_of_getElem? hout)
  exact ⟨_, houter, Except.ok.inj (haccepted.symm.trans (h.infer_eq hd))⟩

/-- What is foldable after a fusion is foldable once the new nodes are in the graph. -/
theorem foldable_scaled (hq : g₀.Relevant q) (hfold : (g'.release ids).Foldable q) :
    (g.scaled rule x t descs).Foldable q := by
  have hr : (g'.release ids).Restricts g' :=
    Graph.restricts_releaseStack h.diverts.wellFormed ids.reverse
  refine h.diverts.foldable (hr.foldable hfold) (fun w hw => ?_) fun i v hi hnode hv => ⟨?_, ?_⟩
  · rw [Graph.view?_scaled] at hw
    split at hw
    · exact Option.some.inj hw ▸ rfl
    split at hw
    · exact Option.some.inj hw ▸ rfl
    · exact ht.isBuiltIn hq hw
  · -- the product has the descriptions of the root
    obtain ⟨w, hw, rfl⟩ := h.descs_eq ht hroot
    rw [Graph.desc?, Graph.desc?, Edit.outputsOf, Graph.view?_scaled_product, hv,
      Graph.view?_scaled_of_view? hw]
    rfl
  · exact Graph.constantValue?_eq_none Graph.view?_scaled_product
      (show Kind.multiply ≠ .constant by decide)

/-- The new product reads a constant, so it is foldable only if the data is a constant. -/
theorem foldable_inner_of_product (hfold : (g.scaled rule x t descs).Foldable g.product) :
    g₀.Relevant y.node ∧ g.Foldable y.node := by
  obtain ⟨w, ds, values, hw, -, -, hvalues, -⟩ := Graph.foldable_iff.1 hfold
  obtain rfl := Option.some.inj (Graph.view?_scaled_product.symm.trans hw)
  have hshape : Op.binary .multiply rule ≠ .shapeOf := by
    intro h
    cases h
  obtain ⟨ts, hts, heval⟩ := (Op.fold_eq_some rfl hshape).1 hvalues
  obtain ⟨u, l, hu, hrest, rfl⟩ := List.forall₂_cons_left_iff.1 hts
  obtain ⟨t', l, ht', hnil, rfl⟩ := List.forall₂_cons_left_iff.1 hrest
  obtain rfl := List.forall₂_nil_left_iff.1 hnil
  have hconstant : (g.scaled rule x t descs).constantValue? ⟨g.nodes.size, 0⟩ = some t :=
    Graph.constantValue?_eq_some.2 ⟨_, Graph.view?_scaled_constant, rfl⟩
  obtain rfl := Option.some.inj (hconstant.symm.trans ht')
  obtain ⟨type, s, -, -, hzip, -⟩ := BinaryOp.evaluate_eq_some
    (show BinaryOp.evaluate .multiply rule [u, t] = _ from heval)
  obtain ⟨wx, hwx⟩ := Graph.contains_iff_view.1
    (ht.wellFormed.contains_of_produces h.chain.produces_inner)
  have hx : g.constantValue? x = some u := by
    rw [← hu]
    refine Graph.constantValue?_congr ?_
    rw [Graph.op?_of_view? hwx, Graph.op?_of_view? (Graph.view?_scaled_of_view? hwx)]
  exact h.foldable_inner ht hroot hx (Tensor.zipBroadcast_eq_some hzip).2

/-- **Where something is foldable after a fusion, something has been foldable before.** -/
theorem exists_foldable (hq : g₀.Relevant q) (hfold : (g'.release ids).Foldable q) :
    ∃ p, g₀.Relevant p ∧ g.Foldable p := by
  have hscaled := h.foldable_scaled ht hroot hq hfold
  obtain ⟨w, -, -, hw, hkind, -⟩ := Graph.foldable_iff.1 hscaled
  have hlive {p : NodeId} {u : Node.View} (hu : g.view? p = some u) :
      (g.scaled rule x t descs).view? p = g.view? p := (Graph.view?_scaled_of_view? hu).trans hu.symm
  rw [Graph.view?_scaled] at hw
  split at hw
  next hproduct =>
    rw [hproduct] at hscaled
    exact ⟨y.node, h.foldable_inner_of_product ht hroot hscaled⟩
  split at hw
  · obtain rfl := Option.some.inj hw
    exact absurd (by simp [Op.kind]) hkind
  · refine ⟨q, hq, hscaled.of_view?_eq (hlive hw).symm fun p hp => ?_⟩
    obtain ⟨u, hu, v, hv, rfl⟩ := Graph.produces_iff_view.1 hp
    obtain rfl := Option.some.inj ((Graph.view?_scaled_of_view? hw).symm.trans hu)
    obtain ⟨u, hu⟩ := Graph.contains_iff_view.1 (ht.wellFormed.contains_of_produces
      (Graph.produces_of_view? hw hv))
    exact (hlive hu).symm

end MultiplyChain.Fuses

/-! ### The rules -/

namespace Graph

/-- A change that brings up nothing that passes look for, and nothing to fold where there has been nothing
to fold. -/
structure Proceeds (g₀ g g' : Graph) : Prop extends Subsides g g' where
  unfoldable : g₀.Lacks Foldable g → g₀.Lacks Foldable g'

instance : IsTrans Graph (Proceeds g₀) where
  trans _ _ _ h h' :=
    { toSubsides := IsTrans.trans (r := Subsides) _ _ _ h.toSubsides h'.toSubsides
      unfoldable := fun hfoldable => h'.unfoldable (h.unfoldable hfoldable) }

theorem Restricts.proceeds (h : g'.Restricts g) : g₀.Proceeds g g' where
  toSubsides := h.subsides
  unfoldable hfoldable _ hq hfold := hfoldable hq (h.foldable hfold)

end Graph

section Rules

variable {σ : Type}

/-- A relation between graphs, as a relation between sessions. -/
abbrev OnGraphs (R : Graph → Graph → Prop) (s s' : Session σ) : Prop := R s.graph s'.graph

instance (R : Graph → Graph → Prop) [IsTrans Graph R] : IsTrans (Session σ) (OnGraphs R) where
  trans _ _ _ h h' := IsTrans.trans (r := R) _ _ _ h h'

theorem Negation.advances_rule : (Negation.rule : Rule σ).Advances g₀ (OnGraphs Graph.Subsides) where
  local_rule := settling_rule.local_rule
  frees := settling_rule.frees
  conserving := settling_rule.conserving g₀
  after_hit := by
    intro s s' id hs _ happly
    obtain ⟨τ, rank, ht⟩ := hs
    exact subsides_of_applyAt ht.wellFormed happly

theorem MultiplyChain.advances_rule :
    (MultiplyChain.rule : Rule σ).Advances g₀ (OnGraphs g₀.Proceeds) where
  local_rule := settling_rule.local_rule
  frees := settling_rule.frees
  conserving := settling_rule.conserving g₀
  after_hit := by
    intro s s' id hs hid happly
    obtain ⟨τ, rank, ht⟩ := hs
    obtain ⟨x, y, c₁, c₂, rule, a, b, t, descs, ids, g', hfuses, hs'⟩ :=
      exists_fuses_of_applyAt ht.wellFormed ht.acyclic happly
    rw [OnGraphs, hs']
    refine ⟨hfuses.subsides, fun hfoldable q hq hfold => ?_⟩
    obtain ⟨p, hp, hold⟩ := hfuses.exists_foldable ht hid hq hfold
    exact hfoldable hp hold

theorem Identity.mem_lawfulRules {r : Rule σ} (hr : r ∈ [convertRule, multiplyRule, addRule]) :
    r ∈ lawfulRules :=
  List.mem_cons_of_mem _ (List.mem_cons_of_mem _ hr)

theorem Identity.advances_of_mem {r : Rule σ} (hr : r ∈ [convertRule, multiplyRule, addRule]) :
    r.Advances g₀ (OnGraphs g₀.Proceeds) where
  local_rule := Rule.local_of_mem_lawfulRules (mem_lawfulRules hr)
  frees := Rule.frees_of_mem_lawfulRules (mem_lawfulRules hr)
  conserving := Rule.conserving_of_mem_lawfulRules (mem_lawfulRules hr)
  after_hit := by
    intro s s' id hs hid happly
    obtain ⟨τ, rank, ht⟩ := hs
    obtain ⟨source, g₁, hbypasses⟩ := exists_bypasses_of_applyAt ht hid hr happly
    refine ⟨hbypasses.subsides, fun hfoldable q hq hfold => hfoldable hq ?_⟩
    exact hbypasses.foldable ht hid (hfoldable hid) hq hfold

end Rules

end OpGraph
