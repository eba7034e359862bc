import OpGraph.Proofs.Optimize.Progress
import OpGraph.Proofs.Optimize.TypedFolding
import OpGraph.Proofs.Rule.Settled

/-!
# Nothing is left to fold

A node is foldable when its outputs can be computed ahead of time (`Graph.Foldable`).  Whether it is depends
on the constants that it reads and, for the shape of a value, on the description of the value.  So a node
that is foldable after a change has been foldable before, unless it reads other constants or other
descriptions now (`Diverts.foldable`).

Folding a node changes only what its readers read, and these are still ahead.  So the walk leaves nothing
foldable behind (`Calm.foldNode`), and where nothing is foldable, folding changes nothing
(`foldConstants_of_unfoldable`).
-/

namespace OpGraph

/-- An operation other than the shape of a value is computed from what it reads, all of which is known. -/
theorem Op.fold_eq_some {op : Op} (hop : op.isBuiltIn) (hshape : op ≠ .shapeOf)
    {values : List (Option Tensor)} {ds : List Desc} {outs : List Tensor} :
    op.fold values ds = some outs ↔
      ∃ ts, List.Forall₂ (fun x t => x = some t) values ts ∧ op.evaluate ts = some outs := by
  have hfold : op.fold values ds = (allKnown values).bind op.evaluate := by
    cases op with
    | shapeOf => exact absurd rfl hshape
    | extension e => cases hop
    | _ => rfl
  rw [hfold, Option.bind_eq_some_iff]
  exact exists_congr fun ts => and_congr_left' mapM_eq_some

namespace Graph

variable {g₀ g g' g₁ g₂ : Graph} {root id q : NodeId} {ρ : Output → Output} {ids : List NodeId}

/-- The outputs of the node can be computed ahead of time. -/
def Foldable (g : Graph) (id : NodeId) : Prop := ∃ values, g.fold? id = .ok (some values)

theorem foldable_iff : g.Foldable id ↔ ∃ w ds values, g.view? id = some w ∧
    w.op.kind ∉ [Kind.parameter, .result, .constant] ∧
    List.Forall₂ (fun v d => g.desc? v = some d) w.inputs ds ∧
    w.op.fold (w.inputs.map g.constantValue?) ds = some values ∧
    values.length = w.descs.length := by
  constructor
  · rintro ⟨values, h⟩
    obtain ⟨w, ds, hw, hp, hr, hc, hds, hfold, hlen⟩ := fold?_eq_some h
    exact ⟨w, ds, values, hw, by simp [hp, hr, hc], hds, hfold, hlen⟩
  · rintro ⟨w, ds, values, hw, hkind, hds, hfold, hlen⟩
    obtain ⟨n, hn, rfl⟩ := view?_eq_some.1 hw
    have hdescs : g.inputDescs id = .ok ds :=
      Edit.inputDescs_eq_ok.2 ⟨n, hn, hds.imp fun _ _ => desc_eq_ok_iff_desc?.2⟩
    have hinner : ¬ (n.kind = .parameter ∨ n.kind = .result ∨ n.kind = .constant) := by
      simpa [Node.view, Node.kind] using hkind
    have hcount : values.length = n.outputs.length := by
      rw [hlen, Node.length_descs]
    have hnode : n.op.fold (n.inputs.map g.constantValue?) ds = some values := hfold
    refine ⟨values, ?_⟩
    simp [fold?, node_eq_ok.2 hn, hdescs, hinner, hnode, hcount, bind, Except.bind, pure, Except.pure]

theorem Foldable.exists_view (h : g.Foldable id) :
    ∃ w, g.view? id = some w ∧ w.op.kind ∉ [Kind.parameter, .result, .constant] := by
  obtain ⟨w, -, -, hw, hkind, -⟩ := foldable_iff.1 h
  exact ⟨w, hw, hkind⟩

theorem constantValue?_congr {v : Output} (h : g'.op? v.node = g.op? v.node) :
    g'.constantValue? v = g.constantValue? v := by
  rw [constantValue?, constantValue?, h]

theorem constantValue?_eq_none {v : Output} {w : Node.View} (hw : g.view? v.node = some w)
    (hkind : w.op.kind ≠ .constant) : g.constantValue? v = none := by
  by_contra hsome
  obtain ⟨t, ht⟩ := Option.ne_none_iff_exists'.1 hsome
  obtain ⟨w', hw', hop⟩ := constantValue?_eq_some.1 ht
  obtain rfl := Option.some.inj (hw.symm.trans hw')
  exact hkind (congrArg Op.kind hop)

/-! ### What makes a node foldable -/

/-- A node that reads other values has been foldable if they have the same descriptions, and the same
tensors if they are constants.  The tensors do not matter for the shape of a value. -/
theorem Foldable.of_reads (h : g'.Foldable id) {w' w : Node.View} (hw' : g'.view? id = some w')
    (hw : g.view? id = some w) {f : Output → Output} (hin : w'.inputs = w.inputs.map f)
    (houtline : w'.outline = w.outline) (hdesc : ∀ v ∈ w.inputs, g.desc? v = g'.desc? (f v))
    (hconstant : w.op ≠ .shapeOf → ∀ v ∈ w.inputs, g.constantValue? v = g'.constantValue? (f v)) :
    g.Foldable id := by
  obtain ⟨u, ds, values, hu, hkind, hds, hfold, hlen⟩ := foldable_iff.1 h
  obtain rfl := Option.some.inj (hw'.symm.trans hu)
  obtain ⟨hop, hdescs⟩ := Prod.mk.inj houtline
  rw [hin] at hds hfold
  rw [hop] at hkind hfold
  refine foldable_iff.2 ⟨w, ds, values, hw, hkind, ?_, ?_, hdescs ▸ hlen⟩
  · refine forall₂_iff_getElem?.2 ⟨?_, fun k v d hv hd => ?_⟩
    · rw [← List.length_map f, hds.length_eq]
    · have hk : (w.inputs.map f)[k]? = some (f v) := by rw [List.getElem?_map, hv, Option.map_some]
      rw [hdesc v (List.mem_of_getElem? hv)]
      exact (forall₂_iff_getElem?.1 hds).2 k (f v) d hk hd
  · by_cases hshape : w.op = .shapeOf
    · rw [hshape] at hfold ⊢
      exact hfold
    · rw [List.map_congr_left (hconstant hshape), ← hfold, List.map_map]
      rfl

/-- A node is foldable in every graph that has the node and what it reads as they are. -/
theorem Foldable.of_view?_eq (h : g'.Foldable id) (hid : g.view? id = g'.view? id)
    (hreads : ∀ p, g'.Produces p id → g.view? p = g'.view? p) : g.Foldable id := by
  obtain ⟨w, hw, -⟩ := h.exists_view
  have hsame : ∀ v ∈ w.inputs, g.view? v.node = g'.view? v.node := fun v hv =>
    hreads v.node (produces_of_view? hw hv)
  refine h.of_reads hw (hid.trans hw) (List.map_id _).symm rfl
    (fun v hv => desc?_congr (hsame v hv)) fun _ v hv => constantValue?_congr ?_
  rw [op?_eq_view, op?_eq_view]
  exact congrArg _ (hsame v hv)

/-- Nodes that are left have been foldable before. -/
theorem Restricts.foldable (h : g'.Restricts g) (hid : g'.Foldable id) : g.Foldable id := by
  have hsame {p : NodeId} (hp : g'.contains p) : g.view? p = g'.view? p := by
    obtain ⟨u, hu⟩ := contains_iff_view.1 hp
    exact (h.view_eq hu).trans hu.symm
  obtain ⟨w, hw, -⟩ := hid.exists_view
  exact hid.of_view?_eq (hsame (contains_of_view? hw)) fun p hp =>
    hsame (h.wellFormed.contains_of_produces hp)

theorem Diverts.desc?_eq (h : g₁.Diverts root ρ g₂) (v : Output) : g₂.desc? v = g₁.desc? v := by
  rw [desc?, desc?, h.view_eq]
  cases g₁.view? v.node <;> rfl

/-- **What is foldable after readers have moved has been foldable before**, if the values that it reads
in the place of others are no constants and have the same descriptions. -/
theorem Diverts.foldable (h : g₁.Diverts root ρ g₂) (hq : g₂.Foldable q)
    (hbuilt : ∀ w, g₁.view? q = some w → w.op.isBuiltIn)
    (hstands : ∀ i v, g₁.source? i = some v → i.node = q → v.node = root →
      g₁.desc? (ρ v) = g₁.desc? v ∧ g₁.constantValue? (ρ v) = none) : g₁.Foldable q := by
  obtain ⟨w', ds, values, hw', -, -, hfold, -⟩ := foldable_iff.1 hq
  have hview := h.view_eq q
  rw [hw'] at hview
  obtain ⟨w, hw, rfl⟩ := Option.map_eq_some_iff.1 hview.symm
  have hstands : ∀ v ∈ w.inputs, v.node = root →
      g₁.desc? (ρ v) = g₁.desc? v ∧ g₁.constantValue? (ρ v) = none := by
    intro v hv
    obtain ⟨k, hk⟩ := List.mem_iff_getElem?.1 hv
    exact hstands ⟨q, k⟩ v ((source?_of_view? hw).trans hk) rfl
  have hsame : ∀ v, g₂.constantValue? v = g₁.constantValue? v := fun v =>
    constantValue?_congr (h.op?_eq _)
  refine hq.of_reads hw' hw rfl rfl (fun v hv => ?_) fun hshape v hv => ?_
  · rw [h.desc?_eq, divert]
    split
    next hroot => exact (hstands v hv hroot).1.symm
    next => rfl
  · -- all that is read is constant, so it is read where it was
    rw [hsame, divert, if_neg]
    intro hroot
    obtain ⟨ts, hknown, -⟩ := (Op.fold_eq_some (hbuilt w hw) hshape).1 hfold
    obtain ⟨t, -, ht⟩ := forall₂_exists_of_mem hknown (List.mem_map_of_mem (List.mem_map_of_mem hv))
    rw [hsame, divert, if_pos hroot, (hstands v hv hroot).2] at ht
    cases ht

/-! ### Folding -/

namespace Folds

variable {values : List Tensor} (h : g.Folds root values ρ g₁ g₂)

include h

theorem expendable : g₂.Expendable [root] root :=
  h.diverts.expendable h.leave h.internal (List.mem_singleton_self root)

/-- The constants that are added are not foldable themselves. -/
theorem foldable_start (hwf : g.WellFormed) (hq : g₁.Foldable q) : g.Foldable q := by
  obtain ⟨w, hw, hkind⟩ := hq.exists_view
  rcases Nat.lt_or_ge q g.nodes.size with hlt | hge
  swap
  · obtain ⟨t, -, rfl⟩ := h.augments.view_new hge hw
    exact absurd (by simp [Op.kind]) hkind
  refine hq.of_view?_eq (h.augments.view_eq hlt).symm fun p hp => (h.augments.view_eq ?_).symm
  have hold := (h.augments.view_eq hlt).symm.trans hw
  obtain ⟨w', hw', v, hv, rfl⟩ := produces_iff_view.1 hp
  obtain rfl := Option.some.inj (hw.symm.trans hw')
  exact lt_size_of_contains (hwf.contains_of_produces (produces_of_view? hold hv))

/-- **What is foldable after a node has been folded has been foldable before, or it has read the node.** -/
theorem foldable_release (hwf : g.WellFormed)
    (hbuilt : ∀ w, (g₂.release [root]).view? q = some w → w.op.isBuiltIn)
    (hq : (g₂.release [root]).Foldable q) : q ≠ root ∧ g.Foldable q ∨ g.Produces root q := by
  by_cases hreads : g.Produces root q
  · exact Or.inr hreads
  obtain ⟨w, hw, -⟩ := hq.exists_view
  obtain ⟨hstays, hw₂⟩ := (view?_release_eq_some h.diverts.wellFormed).1 hw
  have hne : q ≠ root := fun he => hstays (he ▸ h.expendable)
  have hq₂ : g₂.Foldable q := (restricts_releaseStack h.diverts.wellFormed [root].reverse).foldable hq
  refine Or.inl ⟨hne, h.foldable_start hwf (h.diverts.foldable hq₂ (fun u hu => ?_) ?_)⟩
  · have hview := h.diverts.view_eq q
    rw [hw₂, hu] at hview
    obtain rfl := Option.some.inj hview
    have hop := hbuilt _ hw
    exact hop
  · -- nothing that it reads has moved
    intro i v hi rfl hv
    refine absurd ?_ hreads
    rw [source?_eq_view] at hi
    obtain ⟨u, hu, hk⟩ := Option.bind_eq_some_iff.1 hi
    rcases Nat.lt_or_ge i.node g.nodes.size with hlt | hge
    · rw [h.augments.view_eq hlt] at hu
      exact produces_iff_view.2 ⟨u, hu, v, List.mem_of_getElem? hk, hv⟩
    · obtain ⟨t, -, rfl⟩ := h.augments.view_new hge hu
      cases hk

end Folds

end Graph

open OpGraph.Graph (Foldable)

namespace Calm

variable {g₀ g g' : Graph} {id : NodeId} {ids : List NodeId}

/-- **Whether a node is folded or not, nothing foldable is left behind.** -/
theorem foldNode (h : Calm Foldable g₀ (id :: ids) g) (hlive : g.contains id) {folded : Bool}
    (hok : Edit.foldNode id g = .ok folded g') (hconserves : g₀.Conserves g') :
    Calm Foldable g₀ ids g' := by
  have hchange := Edit.foldNode_eq_ok h.abreast.wellFormed hok
  cases folded with
  | false =>
    obtain ⟨hnone, rfl⟩ := hchange
    refine h.settle fun hfoldable => ?_
    obtain ⟨values, hsome⟩ := hfoldable
    cases Except.ok.inj (hnone.symm.trans hsome)
  | true =>
    obtain ⟨values, ρ, g₁, g₂, hfolds, rfl⟩ := hchange
    refine ⟨h.abreast.rewrites (h.consistentAt h.relevant hlive) hfolds.rewrites, hconserves, ?_⟩
    intro q hq hids hfoldable
    obtain ⟨τ, rank, ht⟩ := hconserves
    rcases hfolds.foldable_release h.abreast.wellFormed (fun w hw => ht.isBuiltIn hq hw) hfoldable with
      ⟨hne, hold⟩ | hreads
    · exact h.quiet hq (List.not_mem_cons_of_ne_of_not_mem hne hids) hold
    · -- what reads the node is still ahead
      rcases List.mem_cons.1 (h.abreast.mem_of_path List.mem_cons_self (.single hreads) hq) with
        rfl | hmem
      · exact h.abreast.acyclic q (.single hreads)
      · exact hids hmem

/-- The walk goes on to the end. -/
theorem exists_foldNodes (h : Calm Foldable g₀ ids g) (changed : Bool) :
    ∃ c g', Edit.foldNodes ids changed g = .ok c g' ∧ Calm Foldable g₀ [] g' := by
  induction ids generalizing g changed with
  | nil => exact ⟨changed, g, rfl, h⟩
  | cons id ids ih =>
    by_cases hlive : g.contains id
    · have hc := h.consistentAt h.relevant hlive
      obtain ⟨folded, g₁, hfold, hconserves⟩ : ∃ folded g₁, Edit.foldNode id g = .ok folded g₁ ∧
          g₀.Conserves g₁ := by
        obtain ⟨τ, rank, ht⟩ := h.conserves
        exact (Edit.ends_foldNode_of_typed ht h.relevant hlive).exists_ok
      obtain ⟨c, g', hwalk, hend⟩ := ih (h.foldNode hlive hfold hconserves) (changed || folded)
      refine ⟨c, g', ?_, hend⟩
      rw [Edit.foldNodes, get_bind, if_pos hlive]
      have hrest : (do
          let folded ← Edit.foldNode id
          Edit.foldNodes ids (changed || folded) : Edit Bool) g = .ok c g' :=
        bind_eq_ok.2 ⟨folded, g₁, hfold, hwalk⟩
      split
      · rw [Edit.bind_of_ok (Edit.revalidate_of_consistentAt hc)]
        exact hrest
      · exact hrest
    · have hquiet : ¬ g.Foldable id := fun hfoldable => by
        obtain ⟨w, hw, -⟩ := hfoldable.exists_view
        exact hlive (Graph.contains_of_view? hw)
      obtain ⟨c, g', hwalk, hend⟩ := ih (h.settle hquiet) changed
      refine ⟨c, g', ?_, hend⟩
      rw [Edit.foldNodes, get_bind, if_neg hlive]
      exact hwalk

end Calm

variable {g : Graph}

/-- **One walk folds all there is to fold.** -/
theorem exists_foldConstants (hwf : g.WellFormed) (hacyclic : g.Acyclic) (hcons : g.Consistent)
    (hbuilt : ∀ id op, g.Reachable id → g.op? id = some op → op.isBuiltIn) :
    ∃ changed g', Edit.foldConstants g = .ok changed g' ∧ Calm Foldable g [] g' := by
  have hstart : Calm Foldable g g.order g := by
    refine ⟨Graph.abreast_start hwf hacyclic hcons,
      Graph.conserves_start hwf hacyclic hcons hbuilt, ?_⟩
    intro id hid hpending hfoldable
    obtain ⟨w, hw, -⟩ := hfoldable.exists_view
    exact hpending ((Graph.mem_order_iff hwf).2 (hid.reachable (Graph.contains_of_view? hw)))
  rw [Edit.foldConstants, get_bind]
  exact hstart.exists_foldNodes false

/-- Where nothing is foldable, folding changes nothing. -/
theorem foldConstants_of_unfoldable (hcons : g.Consistent) (h : ∀ id, g.Reachable id → ¬ g.Foldable id) :
    Edit.foldConstants g = .ok false g := by
  have hall : ∀ ids : List NodeId, (∀ id ∈ ids, g.Reachable id) →
      Edit.foldNodes ids false g = .ok false g := by
    intro ids
    induction ids with
    | nil => exact fun _ => rfl
    | cons id ids ih =>
      intro hids
      obtain ⟨hid, hids⟩ := List.forall_mem_cons.1 hids
      have hc := hcons id hid
      obtain ⟨n, hn⟩ := Graph.contains_iff.1 hc.contains
      obtain ⟨r, hr⟩ := Graph.exists_fold? hc
      have hfold : Edit.foldNode id g = .ok false g := by
        rw [Edit.foldNode, Edit.bind_of_ok (Edit.query_of_ok (Graph.node_eq_ok.2 hn)),
          Edit.bind_of_ok (Edit.query_of_ok hr)]
        cases r with
        | none => rfl
        | some values => exact absurd ⟨values, hr⟩ (h id hid)
      rw [Edit.foldNodes, get_bind, if_pos hc.contains]
      exact bind_eq_ok.2 ⟨false, g, hfold, ih hids⟩
  rw [Edit.foldConstants, get_bind]
  exact hall g.order fun id hid => Graph.reachable_of_mem_order hid

end OpGraph
