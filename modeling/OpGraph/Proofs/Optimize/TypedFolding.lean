import OpGraph.Proofs.Edit.Total
import OpGraph.Proofs.Graph.Typing
import OpGraph.Proofs.Op.Evaluation
import OpGraph.Proofs.Optimize.Folding
import OpGraph.Proofs.Optimize.TypedRules

/-!
# Folding keeps the descriptions and does not fail

The tensors that are computed ahead of time for the outputs of a node have the descriptions that are kept
with the node (`Graph.descs_of_fold?`), since evaluation and inference agree.  So the constants can be
read in the place of the node, and the pass keeps every description (`keeps_foldConstants_conserves`).
-/

namespace OpGraph

namespace Graph

variable {g : Graph} {id : NodeId}

/-- The search for known outputs has an answer at a node that is up to date. -/
theorem exists_fold? (h : g.ConsistentAt id) : ∃ r, g.fold? id = .ok r := by
  obtain ⟨w, ds, hw, hds, -⟩ := consistentAt_iff_view.1 h
  obtain ⟨n, hn, rfl⟩ := view?_eq_some.1 hw
  have hdescs : g.inputDescs id = .ok ds :=
    Edit.inputDescs_eq_ok.2 ⟨n, hn, hds.imp fun _ _ => desc_eq_ok_iff_desc?.2⟩
  rw [fold?, node_eq_ok.2 hn, hdescs]
  simp only [bind, Except.bind]
  split
  · exact ⟨_, rfl⟩
  · split <;> exact ⟨_, rfl⟩

/-- Constants are described by their tensors. -/
theorem eq_map_desc_of_allKnown {inputs : List Output} {ds : List Desc} {ts : List Tensor}
    (hc : ∀ v ∈ inputs, g.ConsistentAt v.node)
    (hds : List.Forall₂ (fun v d => g.desc? v = some d) inputs ds)
    (hts : allKnown (inputs.map g.constantValue?) = some ts) : ds = ts.map Tensor.desc := by
  have hknown := List.forall₂_map_left_iff.1 (mapM_eq_some.1 hts)
  refine List.ext_getElem ?_ fun k hk hk' => ?_
  · rw [List.length_map, ← hds.length_eq, hknown.length_eq]
  · obtain ⟨v, hv, hd⟩ := forall₂_getElem?_right hds (List.getElem?_eq_getElem hk)
    obtain ⟨t, ht, hvt⟩ := forall₂_getElem? hknown hv
    obtain ⟨hlt, rfl⟩ := List.getElem?_eq_some_iff.1 ht
    rw [List.getElem_map]
    exact desc?_of_constantValue? (hc v (List.mem_of_getElem? hv)) hvt hd

/-- **What is folded has the descriptions that are kept with the node.** -/
theorem descs_of_fold? (hc : g.ConsistentAt id) (hp : ∀ p, g.Produces p id → g.ConsistentAt p)
    {w : Node.View} (hw : g.view? id = some w) (hbuilt : w.op.isBuiltIn) {values : List Tensor}
    (hfold : g.fold? id = .ok (some values)) : w.descs = values.map Tensor.desc := by
  obtain ⟨w', ds, hw', hpar, hres, hconst, hds, hfold, -⟩ := fold?_eq_some hfold
  obtain rfl := Option.some.inj (hw.symm.trans hw')
  obtain ⟨w', ds', hw', hds', hinfer⟩ := consistentAt_iff_view.1 hc
  obtain rfl := Option.some.inj (hw.symm.trans hw')
  have hunique : Relator.RightUnique fun v d => g.desc? v = some d := fun _ _ _ h h' =>
    Option.some.inj (h.symm.trans h')
  obtain rfl := List.right_unique_forall₂' hunique hds hds'
  have hconsistent : ∀ v ∈ w.inputs, g.ConsistentAt v.node := fun v hv =>
    hp v.node (produces_of_view? hw hv)
  -- the operations that fold as they evaluate
  have hdefault : (allKnown (w.inputs.map g.constantValue?)).bind w.op.evaluate = some values →
      w.op.isEvaluable → w.descs = values.map Tensor.desc := by
    intro hbind hop
    obtain ⟨ts, hts, he⟩ := Option.bind_eq_some_iff.1 hbind
    rw [eq_map_desc_of_allKnown hconsistent hds hts] at hinfer
    obtain ⟨d, hdescs, s, -, ⟨t, ht, rfl⟩ | ⟨hnone, -⟩⟩ := Op.agrees_evaluate hop hinfer
    · rw [hdescs, Option.some.inj (he.symm.trans ht)]
      rfl
    · cases he.symm.trans hnone
  cases hop : w.op with
  | parameter type shape => exact absurd (congrArg Op.kind hop) hpar
  | constant t => exact absurd (congrArg Op.kind hop) hconst
  | result => exact absurd (congrArg Op.kind hop) hres
  | extension e => cases hop ▸ hbuilt
  | shapeOf =>
    rw [hop] at hfold hinfer
    obtain ⟨d, s, t, rfl, hs, ht, rfl⟩ := fold_shapeOf_eq_some hfold
    obtain ⟨-, hdescs⟩ := Op.infer_shapeOf.1 hinfer
    rw [hdescs, List.map_singleton, PartialShape.toShape?_eq_some.1 hs, List.map_singleton,
      Op.desc_of_shapeTensor? ht]
    show [(⟨.i64, .ranked [.static (s.map Dim.static).length]⟩ : Desc)] = _
    rw [List.length_map]
  | convolution c =>
    rw [hop] at hfold
    obtain ⟨ts, -, he⟩ := Option.bind_eq_some_iff.1 hfold
    cases he
  | maxPool p =>
    rw [hop] at hfold
    obtain ⟨ts, -, he⟩ := Option.bind_eq_some_iff.1 hfold
    cases he
  | _ =>
    rw [hop] at hfold hdefault
    exact hdefault hfold rfl

/-! ### The constants of a node -/

variable {g₀ : Graph} {τ : Typing} {rank : NodeId → Nat}

/-- A named constant joins a graph that keeps to a typing. -/
theorem Typed.exists_addNamedConstant (h : Typed g₀ τ rank g) (name : String) (t : Tensor) :
    ∃ g', Edit.addNamedConstant name t g = .ok ⟨g.nodes.size, 0⟩ g' ∧
      Typed g₀ (Function.update τ g.nodes.size [t.desc]) (Function.update rank g.nodes.size 0) g' ∧
      g'.Retains g ∧ g'.nodes.size = g.nodes.size + 1 ∧
      g'.desc? ⟨g.nodes.size, 0⟩ = some t.desc := by
  have hdesc := desc?_insert_size g (.constant t) [] [t.desc] 0
  have h' := h.insert_constant t
  have hret : (g.insert (.constant t) [] [t.desc]).Retains g :=
    h.wellFormed.retains.insert (by simp)
  have hsize := size_insert g (.constant t) [] [t.desc]
  have hadd := Edit.addConstant_eq t g
  generalize g.insert (.constant t) [] [t.desc] = g₁ at *
  have hname := Edit.updateNode_of_contains (contains_of_desc? hdesc)
    fun n => { n with givenName := some name }
  refine ⟨g₁.modifyNode g.nodes.size fun n => { n with givenName := some name }, ?_,
    hereditary_typed.restrict h' (restricts_modifyNode h'.wellFormed fun _ => ⟨rfl, rfl, rfl, rfl⟩),
    hret.modifyNode fun _ => ⟨rfl, rfl, rfl, rfl⟩, ?_, ?_⟩
  · unfold Edit.addNamedConstant
    rw [Edit.bind_of_ok hadd]
    exact bind_eq_ok.2 ⟨(), _, hname, rfl⟩
  · rw [size_nodes_modifyNode, hsize]
  · rw [desc?, view?_modifyNode_eq (by intro n _; rfl)]
    exact hdesc

/-- The constants for the outputs of a node are new nodes below all others. -/
theorem Typed.exists_mapM_addNamedConstant (h : Typed g₀ τ rank g)
    {f : Tensor × Nat → Edit Output} (hf : ∀ e, ∃ name, f e = Edit.addNamedConstant name e.1)
    (l : List (Tensor × Nat)) :
    ∃ vs g' τ' rank', l.mapM f g = .ok vs g' ∧ Typed g₀ τ' rank' g' ∧ g'.Retains g ∧
      (∀ id < g.nodes.size, τ' id = τ id ∧ rank' id = rank id) ∧
      List.Forall₂ (fun v e => g₀.Relevant v.node ∧ rank' v.node = 0 ∧
        g'.desc? v = some e.1.desc) vs l := by
  induction l generalizing g τ rank with
  | nil => exact ⟨[], g, τ, rank, rfl, h, h.wellFormed.retains, fun _ _ => ⟨rfl, rfl⟩, .nil⟩
  | cons e l ih =>
    obtain ⟨name, hname⟩ := hf e
    obtain ⟨g₁, hadd, h₁, hret₁, hsize₁, hdesc₁⟩ := h.exists_addNamedConstant name e.1
    obtain ⟨vs, g', τ', rank', hl, h', hret, hsame, hvs⟩ := ih h₁
    have hnew := hsame g.nodes.size (hsize₁ ▸ Nat.lt_succ_self _)
    refine ⟨⟨g.nodes.size, 0⟩ :: vs, g', τ', rank', ?_, h', hret.trans hret₁, fun id hid => ?_,
      .cons ⟨Or.inr h.size_le, ?_, ?_⟩ hvs⟩
    · rw [List.mapM_cons, hname]
      exact bind_eq_ok.2 ⟨_, g₁, hadd, bind_eq_ok.2 ⟨vs, g', hl, rfl⟩⟩
    · obtain ⟨hτ, hrank⟩ := hsame id (hsize₁ ▸ Nat.lt_succ_of_lt hid)
      rw [hτ, hrank, Function.update_of_ne (Nat.ne_of_lt hid),
        Function.update_of_ne (Nat.ne_of_lt hid)]
      exact ⟨rfl, rfl⟩
    · rw [hnew.2, Function.update_self]
    · rw [h'.desc?_eq (hret.contains (contains_of_desc? hdesc₁)), Typing.desc?, hnew.1,
        Function.update_self]
      rfl

end Graph

namespace Edit

variable {g₀ g : Graph}

theorem keeps_inheritMetadata_of_retains {id : NodeId} {v : Output} (hid : g.contains id)
    (hv : ∃ d, g.desc? v = some d) : Keeps (·.Retains g) Never (inheritMetadata id v) := by
  intro g' hg'
  obtain ⟨targets, hts⟩ := Graph.exists_targets?_iff.2 (hg'.desc hv)
  refine ends_bind_of_query (Graph.targets_eq_ok.2 hts) ?_
  have hkeeps : Keeps (·.Retains g') Never
      (targets.forM fun i => copyMetadata [id, i.node] [i.node]) := by
    refine keeps_forM fun i hi => ?_
    have hnode := Graph.contains_of_source? (hg'.wellFormed.target_reads hts hi)
    refine keeps_copyMetadata_of_retains (fun j hj => ?_) fun j hj => ?_
    · rcases List.mem_pair.1 hj with rfl | rfl
      · exact hg'.contains hid
      · exact hnode
    · exact List.mem_singleton.1 hj ▸ hnode
  exact (hkeeps g' hg'.wellFormed.retains).imp fun _ h => h.trans hg'

/-- **Folding a node neither fails nor changes descriptions.** -/
theorem ends_foldNode_of_typed {τ : Typing} {rank : NodeId → Nat} (h : Graph.Typed g₀ τ rank g)
    {id : NodeId} (hid : g₀.Relevant id) (hlive : g.contains id) :
    Ends (Graph.Conserves g₀) Never (foldNode id g) := by
  have hc := h.consistentAt hid hlive
  obtain ⟨n, hn⟩ := Graph.contains_iff.1 hlive
  have hw : g.view? id = some n.view := Graph.view?_eq_some.2 ⟨n, hn, rfl⟩
  obtain ⟨r, hr⟩ := Graph.exists_fold? hc
  rw [foldNode]
  refine ends_bind_of_query (Graph.node_eq_ok.2 hn) (ends_bind_of_query hr ?_)
  cases r with
  | none => exact ⟨τ, rank, h⟩
  | some values =>
  have hp : ∀ p, g.Produces p id → g.ConsistentAt p := fun p hp => by
    obtain ⟨w, hw, v, hv, rfl⟩ := Graph.produces_iff_view.1 hp
    exact h.consistentAt (h.relevant hid hw v hv) (h.wellFormed.contains_of_produces hp)
  have hdescs := Graph.descs_of_fold? hc hp hw (h.isBuiltIn hid hw) hr
  obtain ⟨vs, g', τ', rank', hmap, h', hret, hsame, hvs⟩ :=
    h.exists_mapM_addNamedConstant (fun e => ⟨_, rfl⟩) values.zipIdx
  dsimp only
  rw [bind_of_ok hmap]
  -- each output has a constant with its description
  have hmovable : ∀ k v, vs[k]? = some v → Movable (Graph.Typed g₀ τ' rank') ⟨id, k⟩ v := by
    intro k v hv
    obtain ⟨e, he, hrel, hrank, hdesc⟩ := forall₂_getElem? hvs hv
    obtain ⟨t, ht, rfl⟩ := Option.map_eq_some_iff.1 (List.getElem?_zipIdx.symm.trans he)
    refine Graph.movable_typed ?_ (hrank ▸ Nat.zero_le _) hrel
    rw [h'.typing_desc? hdesc, Typing.desc?, (hsame id (Graph.lt_size_of_node? hn)).1,
      ← h.descs_eq hw, hdescs, List.getElem?_map, ht, Option.map_some]
  have hP : Hereditary (Graph.Typed g₀ τ' rank') := Graph.hereditary_typed
  obtain ⟨w, hw', -, hlen⟩ := hret.view hw
  have hvalues : ∀ v ∈ vs, ∃ d, g'.desc? v = some d := fun v hv => by
    obtain ⟨e, -, -, -, hdesc⟩ := forall₂_exists_of_mem hvs hv
    exact ⟨_, hdesc⟩
  have hcount : vs.length = w.descs.length := by
    rw [hvs.length_eq, List.length_zipIdx, hlen, hdescs, List.length_map]
  refine Graph.Typed.ends_conserves (?_ : Ends (Graph.Typed g₀ τ' rank') Anything _)
    (?_ : Ends Anything Never _)
  · refine keeps_bind (keeps_replaceNodeWith_of_movable hP.renamable hmovable) (fun _ => ?_) g' h'
    refine keeps_bind (keeps_forM fun v _ => keeps_inheritMetadata hP.renamable id v) fun _ => ?_
    exact keeps_bind (keeps_release_of_hereditary hP [id]) fun _ => keeps_pure true
  · refine ends_then (keeps_replaceNodeWith_of_retains hw' hcount hvalues g'
      h'.wellFormed.retains) fun _ g₁ hg₁ => ?_
    refine ends_then (keeps_forM (fun v hv => keeps_inheritMetadata_of_retains
      (hret.contains hlive) (hvalues v hv)) g₁ hg₁) fun _ _ _ => ?_
    trivial

theorem keeps_foldNodes_conserves {ids : List NodeId} (hids : ∀ id ∈ ids, g₀.Relevant id)
    (changed : Bool) : Keeps g₀.Conserves Never (foldNodes ids changed) := by
  induction ids generalizing changed with
  | nil => exact keeps_pure changed
  | cons id ids ih =>
    have hid := hids id List.mem_cons_self
    have hrest := ih fun x hx => hids x (List.mem_cons_of_mem id hx)
    intro g hg
    obtain ⟨τ, rank, h⟩ := hg
    rw [foldNodes, get_bind]
    dsimp only
    split
    next hlive =>
      have hfold : Ends g₀.Conserves Never ((do
          let folded ← foldNode id
          foldNodes ids (changed || folded) : Edit Bool) g) :=
        ends_bind (ends_foldNode_of_typed h hid hlive) fun folded => hrest (changed || folded)
      split
      · -- inference finds nothing to do
        rw [bind_of_ok (revalidate_of_consistentAt (h.consistentAt hid hlive))]
        exact hfold
      · exact hfold
    next => exact hrest changed g ⟨τ, rank, h⟩

/-- **Folding neither fails nor changes descriptions.** -/
theorem keeps_foldConstants_conserves (g₀ : Graph) : Keeps g₀.Conserves Never foldConstants := by
  intro g hg
  obtain ⟨τ, rank, h⟩ := hg
  rw [foldConstants, get_bind]
  refine keeps_foldNodes_conserves (fun id hid => ?_) false g ⟨τ, rank, h⟩
  exact h.relevant_of_reachable (Graph.reachable_of_mem_order hid)

end Edit

end OpGraph
