import OpGraph.Proofs.Optimize.Stages

/-!
# Folding is complete

A node that reads constants only is foldable as long as the shape of its result can be addressed
(`Graph.Typed.foldable_of_constants`), and so is the shape of a value that has a static shape
(`Graph.Typed.foldable_of_static`).  One walk leaves nothing foldable behind.  It adds constants only and
keeps all descriptions (`Graph.AddsConstants`), so no result becomes too large on the way, and nothing that
could be computed is left (`constantFolding_complete`).
-/

namespace OpGraph

open OpGraph.Graph (Foldable)

variable {σ : Type} {g₀ g g' g₁ g₂ : Graph} {τ : Typing} {rank : NodeId → Nat} {root id : NodeId}
  {changed : Bool}

namespace Graph

/-- The node is computed from tensors or the shape of a value, and the shape that is kept with it cannot be
addressed. -/
def Overflows (g : Graph) (id : NodeId) : Prop :=
  ∃ w s, g.view? id = some w ∧ w.op.isEvaluable ∧ (∃ d ∈ w.descs, d.shape = .ofShape s) ∧
    s.addressable = false

/-! ### What folding adds -/

/-- Every node is one of `g`, with its operation and its descriptions, or it is a constant. -/
def AddsConstants (g g' : Graph) : Prop :=
  ∀ ⦃id w⦄, g'.view? id = some w →
    (∃ w₀, g.view? id = some w₀ ∧ w.outline = w₀.outline) ∨ ∃ t, w.op = .constant t

instance : IsTrans Graph AddsConstants where
  trans _ _ _ h h' := by
    intro id w hw
    rcases h' hw with ⟨w₁, hw₁, hsame⟩ | hconstant
    · rcases h hw₁ with ⟨w₀, hw₀, hsame₀⟩ | ⟨t, ht⟩
      · exact Or.inl ⟨w₀, hw₀, hsame.trans hsame₀⟩
      · exact Or.inr ⟨t, (Prod.mk.inj hsame).1.trans ht⟩
    · exact Or.inr hconstant

theorem Folds.addsConstants {values : List Tensor} {ρ : Output → Output}
    (h : g.Folds root values ρ g₁ g₂) : g.AddsConstants (g₂.release [root]) := by
  intro id w hw
  rcases h.renews.view_cases hw with hold | ⟨t, hnew⟩ | ⟨hmem, -⟩
  · exact Or.inl hold
  · exact Or.inr ⟨t, (Prod.mk.inj hnew).1⟩
  · cases hmem

theorem AddsConstants.overflows (h : g.AddsConstants g') (hid : g'.Overflows id) : g.Overflows id := by
  obtain ⟨w, s, hw, hop, hlarge⟩ := hid
  rcases h hw with ⟨w₀, hw₀, hsame⟩ | ⟨t, ht⟩
  · obtain ⟨hop₀, hdescs₀⟩ := Prod.mk.inj hsame
    exact ⟨w₀, s, hw₀, hop₀ ▸ hop, hdescs₀ ▸ hlarge⟩
  · rw [ht] at hop
    cases hop

end Graph

theorem reports_foldNode_addsConstants (hid : g₀.Relevant id) :
    Reports (Graph.Conserves g₀) Graph.AddsConstants (Edit.foldNode id) := by
  intro g folded g' hg h
  have ⟨τ, rank, ht⟩ := hg
  have hchange := Edit.foldNode_eq_ok ht.wellFormed h
  cases folded with
  | false =>
    obtain ⟨-, rfl⟩ := hchange
    exact ⟨hg, .start g'⟩
  | true =>
    obtain ⟨values, ρ, g₁, g₂, hfolds, rfl⟩ := hchange
    obtain ⟨w, -, hw, -⟩ := Graph.fold?_eq_some hfolds.fold?_eq
    exact ⟨(Edit.ends_foldNode_of_typed ht hid (Graph.contains_of_view? hw)).of_ok h,
      hfolds.addsConstants⟩

theorem addsConstants_of_foldConstants (hg : g.Conserves g)
    (h : Edit.foldConstants g = .ok changed g') : g.AddsConstants g' := by
  obtain ⟨-, hreported⟩ := reported_foldConstants (fun hg => hg) reports_foldNode_addsConstants hg h
  exact hreported.of_refl fun _ w hw => Or.inl ⟨w, hw, rfl⟩

/-! ### What is foldable -/

namespace Graph.Typed

variable (ht : Typed g₀ τ rank g) (hid : g₀.Relevant id)

include ht hid

/-- **The shape of a value is foldable where it is static**, unless it has too many axes. -/
theorem foldable_of_static {w : Node.View} (hw : g.view? id = some w) (hop : w.op = .shapeOf)
    {v : Output} (hv : v ∈ w.inputs) {d : Desc} (hd : g.desc? v = some d) {s : Shape}
    (hs : d.shape.toShape? = some s) (hsmall : ¬ g.Overflows id) : g.Foldable id := by
  obtain ⟨ds, hds, hinfer⟩ := ht.reads hid hw
  rw [hop] at hinfer
  obtain ⟨hlen, hdescs⟩ := Op.infer_shapeOf.1 hinfer
  obtain ⟨e, rfl⟩ := List.length_eq_one_iff.1 hlen
  obtain ⟨e', he', hde, -⟩ := forall₂_exists_of_mem hds hv
  obtain rfl := List.mem_singleton.1 he'
  obtain rfl := Option.some.inj (hd.symm.trans hde)
  have hdesc : w.descs = [⟨.i64, .ofShape [s.length]⟩] := by
    rw [hdescs, List.map_singleton, PartialShape.toShape?_eq_some.1 hs]
    simp [PartialShape.ofShape, PartialShape.rank?]
  have hfits : Shape.addressable [s.length] := by
    by_contra hlarge
    exact hsmall ⟨w, [s.length], hw, by rw [hop]; rfl,
      ⟨_, hdesc ▸ List.mem_singleton_self _, rfl⟩, by simpa using hlarge⟩
  obtain ⟨t, ht⟩ := Option.isSome_iff_exists.1 ((Op.isSome_shapeTensor? s).trans hfits)
  refine foldable_iff.2 ⟨w, [d], [t], hw, by rw [hop]; decide, hds.imp fun _ _ h => h.1, ?_,
    by rw [hdescs]; rfl⟩
  rw [hop, Op.fold, hs, Option.bind_some, ht]
  rfl

/-- Where nothing is foldable, a node that is computed from tensors reads one that is no constant, unless
its result is too large. -/
theorem exists_produces_of_unfoldable {w : Node.View} (hw : g.view? id = some w)
    (hop : w.op.isComputed) (hfoldable : ¬ g.Foldable id) (hsmall : ¬ g.Overflows id) :
    ∃ p, g.Produces p id ∧ ∀ t, g.op? p ≠ some (.constant t) := by
  by_contra hall
  push Not at hall
  have hconstant : ∀ v ∈ w.inputs, ∃ t, g.constantValue? v = some t := by
    intro v hv
    obtain ⟨t, ht⟩ := hall v.node (produces_of_view? hw hv)
    obtain ⟨u, hu, hop⟩ := exists_view_of_op? ht
    exact ⟨t, constantValue?_eq_some.2 ⟨u, hu, hop⟩⟩
  obtain ⟨ts, hts⟩ := exists_forall₂ hconstant
  rcases ht.foldable_of_constants hid hw hop hts with hfold | ⟨d, s, -, hdescs, hs, hlarge⟩
  · exact hfoldable hfold
  · exact hsmall ⟨w, s, hw, (Op.evaluable_of_isComputed hop).1, ⟨d, hdescs ▸ List.mem_singleton_self d, hs⟩, hlarge⟩

end Graph.Typed

/-! ### The pass -/

/-- **Folding is complete after one walk.**  On a graph without cycles of built-in operations whose
descriptions are up to date, where all that is computed can be addressed, folding does not fail.
Afterwards every elementwise operation, conversion and combination of parts reads something that is no
constant, no shape is taken of a value whose shape is static, and folding again changes nothing. -/
theorem constantFolding_complete (hwf : g.WellFormed) (hacyclic : g.Acyclic) (hcons : g.Consistent)
    (hbuilt : ∀ id op, g.Reachable id → g.op? id = some op → op.isBuiltIn)
    (hsmall : ∀ id, g.Reachable id → ¬ g.Overflows id) (filter : PassFilter) (memory : σ) :
    ∃ changed s, Pass.constantFolding.run filter ⟨g, memory⟩ = .ok changed s ∧
      (∀ id op, s.graph.Reachable id → s.graph.op? id = some op → op.isComputed →
        ∃ p, s.graph.Produces p id ∧ ∀ t, s.graph.op? p ≠ some (.constant t)) ∧
      (∀ i v d, s.graph.Reachable i.node → s.graph.op? i.node = some .shapeOf →
        s.graph.source? i = some v → s.graph.desc? v = some d → d.shape.toShape? = none) ∧
      Pass.constantFolding.run filter s = .ok false s := by
  have hstart := Graph.conserves_start hwf hacyclic hcons hbuilt
  obtain ⟨changed, g', hfold, hend⟩ := exists_foldConstants hwf hacyclic hcons hbuilt
  have hadds := addsConstants_of_foldConstants hstart hfold
  have hquiet {id : NodeId} (hid : g.Relevant id) : ¬ g'.Foldable id := hend.lacks hid
  obtain ⟨τ, rank, ht⟩ := hend.conserves
  have hrelevant {id : NodeId} (hid : g'.Reachable id) := ht.relevant_of_reachable hid
  have hfits {id : NodeId} (hid : g'.Reachable id) : ¬ g'.Overflows id := by
    intro hlarge
    have hold := hadds.overflows hlarge
    have hlive : g.contains id := by
      obtain ⟨w₀, -, hw₀, -⟩ := hold
      exact Graph.contains_of_view? hw₀
    exact hsmall id ((hrelevant hid).reachable hlive) hold
  refine ⟨changed, ⟨g', memory⟩, Action.edit_eq_ok.2 ⟨g', hfold, rfl⟩, ?_, ?_, ?_⟩
  · intro id op hid hop hcomputed
    obtain ⟨w, hw, rfl⟩ := Graph.exists_view_of_op? hop
    exact ht.exists_produces_of_unfoldable (hrelevant hid) hw hcomputed (hquiet (hrelevant hid))
      (hfits hid)
  · intro i v d hid hop hv hd
    obtain ⟨w, hw, hshape⟩ := Graph.exists_view_of_op? hop
    have hmem : v ∈ w.inputs := List.mem_of_getElem? ((Graph.source?_of_view? hw).symm.trans hv)
    by_contra hstatic
    obtain ⟨s, hs⟩ := Option.ne_none_iff_exists'.1 hstatic
    exact hquiet (hrelevant hid) (ht.foldable_of_static (hrelevant hid) hw hshape hmem hd hs
      (hfits hid))
  · have hagain := foldConstants_of_unfoldable ht.consistent fun id hid => hquiet (hrelevant hid)
    exact Action.edit_eq_ok.2 ⟨g', hagain, rfl⟩

/-! ### A chain of constants -/

namespace Graph

/-- A constant, its negation, and the product of both. -/
def constantChain : Graph :=
  let empty : Tensor := .filled .f64 [0] 0
  let d : Desc := empty.desc
  (((({ name := "chain" } : Graph).insert (.constant empty) [] [d]).insert (.unary .negative) [⟨0, 0⟩]
    [d]).insert .multiply [⟨1, 0⟩, ⟨0, 0⟩] [d]).insert .result [⟨2, 0⟩] [d]

theorem wellFormed_constantChain : constantChain.WellFormed := by
  refine wellFormed_insert_singleton (wellFormed_insert (wellFormed_insert_singleton
    (wellFormed_insert (wellFormed_empty _) (by simp)) ⟨_, rfl⟩) fun v hv => ?_) ⟨_, rfl⟩
  rcases List.mem_pair.1 hv with rfl | rfl
  exacts [⟨_, rfl⟩, ⟨_, rfl⟩]

theorem acyclic_constantChain : constantChain.Acyclic := by
  refine acyclic_of_rank (fun id => id) fun p c hp => ?_
  have hsources : p ∈ constantChain.sourcesOf c := hp
  match c, lt_size_of_contains (contains_of_produces_right hp) with
  | 0, _ => cases hsources
  | 1, _ | 3, _ =>
    obtain rfl := List.mem_singleton.1 hsources
    decide
  | 2, _ => rcases List.mem_pair.1 hsources with rfl | rfl <;> decide

theorem consistent_constantChain : constantChain.Consistent := by
  intro id hr
  refine consistentAt_iff_view.2 ?_
  match id, lt_size_of_contains (wellFormed_constantChain.contains_of_reachable hr) with
  | 0, _ => exact ⟨_, [], rfl, .nil, rfl⟩
  | 1, _ | 3, _ => exact ⟨_, [_], rfl, .cons rfl .nil, rfl⟩
  | 2, _ => exact ⟨_, [_, _], rfl, .cons rfl (.cons rfl .nil), rfl⟩

theorem isBuiltIn_constantChain {op : Op} (h : constantChain.op? id = some op) : op.isBuiltIn := by
  obtain ⟨w, hw, rfl⟩ := exists_view_of_op? h
  match id, lt_size_of_view? hw with
  | 0, _ | 1, _ | 2, _ | 3, _ =>
    obtain rfl := Option.some.inj hw
    rfl

theorem not_overflows_constantChain : ¬ constantChain.Overflows id := by
  rintro ⟨w, s, hw, -, ⟨d, hd, hs⟩, hlarge⟩
  have hempty : d.shape = .ofShape [0] := by
    match id, lt_size_of_view? hw with
    | 0, _ | 1, _ | 2, _ | 3, _ =>
      obtain rfl := Option.some.inj hw
      rw [List.mem_singleton.1 hd]
      rfl
  obtain rfl := PartialShape.ofShape_injective (hs.symm.trans hempty)
  cases hlarge

end Graph

/-- Both operations are folded in one walk, and a second one finds nothing. -/
theorem constantFolding_complete_constantChain :
    (Graph.constantChain.WellFormed ∧ Graph.constantChain.Acyclic ∧ Graph.constantChain.Consistent) ∧
      ∃ s : Session Unit,
        Pass.constantFolding.run {} (⟨Graph.constantChain, ()⟩ : Session Unit) = .ok true s ∧
          s.graph.ids = [3, 5] ∧ Pass.constantFolding.run {} s = .ok false s := by
  refine ⟨⟨Graph.wellFormed_constantChain, Graph.acyclic_constantChain,
    Graph.consistent_constantChain⟩, ?_⟩
  obtain ⟨changed, s, hrun, -, -, hagain⟩ := constantFolding_complete Graph.wellFormed_constantChain
    Graph.acyclic_constantChain Graph.consistent_constantChain
    (fun _ _ _ => Graph.isBuiltIn_constantChain) (fun _ _ => Graph.not_overflows_constantChain) {} ()
  obtain ⟨s', hrun', hids⟩ : ∃ s', Pass.constantFolding.run {} (⟨Graph.constantChain, ()⟩ : Session Unit) =
      .ok true s' ∧ s'.graph.ids = [3, 5] := ⟨_, by with_unfolding_all rfl, by decide +kernel⟩
  obtain ⟨rfl, rfl⟩ := EStateM.Result.ok.inj (hrun.symm.trans hrun')
  exact ⟨s, hrun, hids, hagain⟩

end OpGraph
