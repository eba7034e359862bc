import OpGraph.Proofs.Edit.Steps
import OpGraph.Proofs.Graph.Order

/-!
# Consistent descriptions

A node is consistent when the descriptions kept with it are those that inference finds from the
descriptions of what it reads.  Bringing a consistent node or graph up to date changes nothing
(`Edit.revalidate_of_consistentAt`, `Edit.validate_of_consistent`).
-/

namespace OpGraph.Graph

/-- The descriptions kept with the node are up to date. -/
def ConsistentAt (g : Graph) (id : NodeId) : Prop :=
  ∃ n, g.node? id = some n ∧ g.reinfer id = .ok n.descs

/-- Everything that the boundary hangs on is up to date. -/
def Consistent (g : Graph) : Prop := ∀ id, g.Reachable id → g.ConsistentAt id

variable {g : Graph}

theorem view_withDescs {n : Node} {outs : List Desc} (h : outs.length = n.outputs.length) :
    (n.withDescs outs).view = { n.view with descs := outs } := by
  have hdescs : (n.outputs.zipWith (fun s d => { s with desc := d }) outs).map (·.desc) = outs := by
    rw [List.map_zipWith]
    refine List.ext_getElem (by simp [h]) fun k hk₁ hk₂ => ?_
    rw [List.getElem_zipWith]
  simp only [Node.view, Node.withDescs, Node.descs, hdescs]

theorem reinfer_eq_ok_iff_view {id : NodeId} {outs : List Desc} :
    g.reinfer id = .ok outs ↔
      ∃ w ds, g.view? id = some w ∧ List.Forall₂ (fun v d => g.desc? v = some d) w.inputs ds ∧
        w.op.infer ds = .ok outs ∧ outs.length = w.descs.length := by
  simp only [Edit.reinfer_eq_ok, desc_eq_ok_iff_desc?]
  constructor
  · intro h
    rcases h with ⟨n, ds, hn, hds, hinfer, hlen⟩
    refine ⟨n.view, ds, view?_eq_some.2 ⟨n, hn, rfl⟩, hds, hinfer, ?_⟩
    rw [hlen, Node.length_descs]
  · intro h
    rcases h with ⟨w, ds, hw, hds, hinfer, hlen⟩
    obtain ⟨n, hn, rfl⟩ := view?_eq_some.1 hw
    rw [Node.length_descs] at hlen
    exact ⟨n, ds, hn, hds, hinfer, hlen⟩

theorem length_of_reinfer {id : NodeId} {n : Node} {outs : List Desc} (h : g.reinfer id = .ok outs)
    (hn : g.node? id = some n) : outs.length = n.outputs.length := by
  obtain ⟨m, -, hm, -, -, hlen⟩ := Edit.reinfer_eq_ok.1 h
  obtain rfl := Option.some.inj (hn.symm.trans hm)
  exact hlen

theorem consistentAt_iff_view {id : NodeId} :
    g.ConsistentAt id ↔
      ∃ w ds, g.view? id = some w ∧ List.Forall₂ (fun v d => g.desc? v = some d) w.inputs ds ∧
        w.op.infer ds = .ok w.descs := by
  rw [ConsistentAt]
  constructor
  · intro h
    rcases h with ⟨n, hn, hr⟩
    obtain ⟨w, ds, hw, hds, hinfer, -⟩ := reinfer_eq_ok_iff_view.1 hr
    obtain ⟨m, hm, rfl⟩ := view?_eq_some.1 hw
    rw [hn, Option.some.injEq] at hm
    subst hm
    exact ⟨n.view, ds, hw, hds, hinfer⟩
  · intro h
    rcases h with ⟨w, ds, hw, hds, hinfer⟩
    obtain ⟨n, hn, rfl⟩ := view?_eq_some.1 hw
    exact ⟨n, hn, reinfer_eq_ok_iff_view.2 ⟨n.view, ds, hw, hds, hinfer, rfl⟩⟩

theorem desc?_congr {g' : Graph} {v : Output} (h : g'.view? v.node = g.view? v.node) :
    g'.desc? v = g.desc? v := by
  rw [desc?, desc?, h]

theorem forall₂_desc?_congr {g' : Graph} {inputs : List Output} {ds : List Desc}
    (h : List.Forall₂ (fun v d => g.desc? v = some d) inputs ds)
    (hdesc : ∀ v ∈ inputs, g'.desc? v = g.desc? v) :
    List.Forall₂ (fun v d => g'.desc? v = some d) inputs ds := by
  obtain ⟨hlen, h⟩ := forall₂_iff_getElem?.1 h
  refine forall₂_iff_getElem?.2 ⟨hlen, fun k v d hv hd => ?_⟩
  exact (hdesc v (List.mem_of_getElem? hv)).trans (h k v d hv hd)

/-- Whether a node is up to date depends on what it computes and on the descriptions it reads. -/
theorem ConsistentAt.congr {g' : Graph} {id : NodeId} (h : g.ConsistentAt id)
    (hid : g'.view? id = g.view? id)
    (hdesc : ∀ v, g.Produces v.node id → g'.desc? v = g.desc? v) : g'.ConsistentAt id := by
  obtain ⟨w, ds, hw, hds, hinfer⟩ := consistentAt_iff_view.1 h
  refine consistentAt_iff_view.2 ⟨w, ds, hid.trans hw, forall₂_desc?_congr hds fun v hv => ?_, hinfer⟩
  exact hdesc v (produces_of_view? hw hv)

theorem ConsistentAt.contains {id : NodeId} (h : g.ConsistentAt id) : g.contains id := by
  obtain ⟨n, hn, -⟩ := h
  exact contains_iff.2 ⟨n, hn⟩

/-- A node that does not read itself is up to date once it has the descriptions that inference
finds. -/
theorem consistentAt_withDescs {id : NodeId} {outs : List Desc} (h : g.reinfer id = .ok outs)
    (hself : ¬ g.Produces id id) : (g.modifyNode id (·.withDescs outs)).ConsistentAt id := by
  obtain ⟨w, ds, hw, hds, hinfer, hlen⟩ := reinfer_eq_ok_iff_view.1 h
  obtain ⟨n, hn, rfl⟩ := view?_eq_some.1 hw
  rw [Node.length_descs] at hlen
  refine consistentAt_iff_view.2
    ⟨{ n.view with descs := outs }, ds, ?_, forall₂_desc?_congr hds fun v hv => desc?_congr ?_, hinfer⟩
  · rw [view?_modifyNode, if_pos rfl, hn, Option.map_some, view_withDescs hlen]
  · rw [view?_modifyNode, if_neg]
    rintro rfl
    exact hself (produces_of_view? hw hv)

theorem constantValue?_eq_some {v : Output} {t : Tensor} :
    g.constantValue? v = some t ↔ ∃ w, g.view? v.node = some w ∧ w.op = .constant t := by
  rw [constantValue?, op?, view?]
  cases g.node? v.node with
  | none => simp
  | some n =>
    simp only [Option.map_some, Option.some.injEq, exists_eq_left', Node.view]
    cases n.op <;> simp

/-- The description of a constant is that of its tensor. -/
theorem desc?_of_constantValue? {v : Output} {t : Tensor} {d : Desc}
    (hc : g.ConsistentAt v.node) (ht : g.constantValue? v = some t) (hd : g.desc? v = some d) :
    d = t.desc := by
  obtain ⟨w, hw, hop⟩ := constantValue?_eq_some.1 ht
  obtain ⟨w', ds, hw', -, hinfer⟩ := consistentAt_iff_view.1 hc
  obtain rfl := Option.some.inj (hw'.symm.trans hw)
  rw [hop, Op.infer] at hinfer
  rw [desc?_of_view? hw] at hd
  split at hinfer
  next =>
    rw [← Except.ok.inj hinfer] at hd
    exact (List.mem_singleton.1 (List.mem_of_getElem? hd))
  next => cases hinfer

/-! ### Inference on what is up to date -/

theorem withDescs_descs (n : Node) : n.withDescs n.descs = n := by
  have houtputs : n.outputs.zipWith (fun s d => { s with desc := d }) n.descs = n.outputs := by
    refine List.ext_getElem (by simp [Node.descs]) fun k hk hk' => ?_
    simp [Node.descs]
  rw [Node.withDescs, houtputs]

theorem modifyNode_eq_self {id : NodeId} {f : Node → Node}
    (h : ∀ n, g.node? id = some n → f n = n) : g.modifyNode id f = g := by
  have hnodes : g.nodes.modify id (Option.map f) = g.nodes := by
    refine Array.ext (by simp) fun j hj hj' => ?_
    rw [Array.getElem_modify]
    split
    next hid =>
      subst hid
      cases hn : g.nodes[id] with
      | none => rfl
      | some n =>
        rw [Option.map_some, h n (by rw [node?, Array.getElem?_eq_getElem hj', hn]; rfl)]
    next => rfl
  rw [modifyNode, hnodes]

end OpGraph.Graph

namespace OpGraph.Edit

variable {g : Graph}

theorem revalidate_of_consistentAt {id : NodeId} (h : g.ConsistentAt id) :
    revalidate id g = .ok false g := by
  obtain ⟨n, hn, hre⟩ := h
  have hsame : g.modifyNode id (·.withDescs n.descs) = g :=
    Graph.modifyNode_eq_self fun m hm => by
      obtain rfl := Option.some.inj (hn.symm.trans hm)
      exact Graph.withDescs_descs n
  rw [revalidate, bind_of_ok (query_of_ok hre), bind_of_ok (query_of_ok (Graph.node_eq_ok.2 hn))]
  refine bind_eq_ok.2 ⟨(), g, congrArg (EStateM.Result.ok ()) hsame, ?_⟩
  simp [pure_eq_ok]

/-- **Bringing a graph up to date changes nothing if it is up to date.** -/
theorem validate_of_consistent (h : g.Consistent) : validate g = .ok () g := by
  have hall : ∀ ids : List NodeId, (∀ id ∈ ids, g.ConsistentAt id) →
      ids.forM (fun id => discard (revalidate id)) g = .ok () g := by
    intro ids
    induction ids with
    | nil => exact fun _ => rfl
    | cons id ids ih =>
      intro hids
      have hid : discard (revalidate id) g = .ok () g := by
        rw [discard_eq, bind_of_ok (revalidate_of_consistentAt (hids id List.mem_cons_self))]
        rfl
      exact bind_eq_ok.2 ⟨(), g, hid, ih fun x hx => hids x (List.mem_cons_of_mem id hx)⟩
  exact hall g.order fun id hid => h id (Graph.reachable_of_mem_order hid)

end OpGraph.Edit
