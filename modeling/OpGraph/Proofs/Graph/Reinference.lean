import Mathlib.Data.List.Induction
import OpGraph.Proofs.Edit.WellFormed
import OpGraph.Proofs.Graph.Consistent
import OpGraph.Proofs.Graph.Erasure
import OpGraph.Proofs.Graph.Single

/-!
# Inference from scratch

Bringing a graph up to date is the same whatever descriptions it held before.  Two graphs that differ in
their descriptions only are listed in the same order.  Producers come first in it, so the descriptions
that inference reads at a node have been found by inference in both graphs: by induction on the part of
the list that is done, the two runs agree on that part and stop at the same node if they stop
(`revalidateAll_congr`).  What a run leaves is up to date and differs from what it started with in the
descriptions of the listed nodes only (`refreshes_of_revalidateAll`).  Both together say what inference
on a whole graph does (`validate_forgets_descs`).
-/

namespace OpGraph

/-- The node without the descriptions of its outputs. -/
def Node.undescribed (n : Node) : Node :=
  { n with outputs := n.outputs.map fun s => { s with desc := default } }

namespace Node

theorem undescribed_eq_iff {n n' : Node} :
    n.undescribed = n'.undescribed ↔ n.id = n'.id ∧ n.op = n'.op ∧ n.inputs = n'.inputs ∧
      n.outputs.map (·.targets) = n'.outputs.map (·.targets) ∧ n.givenName = n'.givenName ∧
      n.metadata = n'.metadata := by
  have houtputs : (n.outputs.map fun s => ({ s with desc := default } : Slot)) =
      (n'.outputs.map fun s => { s with desc := default }) ↔
        n.outputs.map (·.targets) = n'.outputs.map (·.targets) := by
    have hof (l : List Slot) : (l.map fun s => ({ s with desc := default } : Slot)) =
        (l.map (·.targets)).map fun ts => ⟨default, ts⟩ := by
      rw [List.map_map]
      rfl
    have hto (l : List Slot) : l.map (·.targets) =
        (l.map fun s => ({ s with desc := default } : Slot)).map (·.targets) := by
      rw [List.map_map]
      rfl
    constructor
    · intro h
      rw [hto, h, ← hto]
    · intro h
      rw [hof, h, ← hof]
  rw [undescribed, undescribed, Node.mk.injEq, houtputs]

theorem length_outputs_of_undescribed_eq {n n' : Node} (h : n.undescribed = n'.undescribed) :
    n.outputs.length = n'.outputs.length := by
  obtain ⟨-, -, -, htargets, -⟩ := undescribed_eq_iff.1 h
  simpa using congrArg List.length htargets

theorem description_of_undescribed_eq {n n' : Node} (h : n.undescribed = n'.undescribed) :
    n.description = n'.description := by
  obtain ⟨hid, hop, -, -, hname, -⟩ := undescribed_eq_iff.1 h
  simp only [description, friendlyName, name, kind, hid, hop, hname]

theorem undescribed_withDescs {n : Node} {outs : List Desc} (h : outs.length = n.outputs.length) :
    (n.withDescs outs).undescribed = n.undescribed :=
  undescribed_eq_iff.2 ⟨rfl, rfl, rfl, Edit.map_targets_withDescs h, rfl, rfl⟩

/-- Nodes that differ in their descriptions are equal once they have got the same ones. -/
theorem withDescs_congr {n n' : Node} (h : n.undescribed = n'.undescribed) (outs : List Desc) :
    n.withDescs outs = n'.withDescs outs := by
  obtain ⟨hid, hop, hinputs, htargets, hname, hmetadata⟩ := undescribed_eq_iff.1 h
  have hzip (l : List Slot) : l.zipWith (fun s d => ({ s with desc := d } : Slot)) outs =
      (l.map (·.targets)).zipWith (fun ts d => ⟨d, ts⟩) outs := by
    rw [List.zipWith_map_left]
  rw [withDescs, withDescs, hzip, hzip, htargets, hid, hop, hinputs, hname, hmetadata]

end Node

namespace Graph

/-- The graph without the descriptions of all outputs. -/
def undescribed (g : Graph) : Graph := g.mapNodes Node.undescribed

variable {g g' g₁ : Graph} {id : NodeId}

/-! ### One node -/

theorem inputDescs_congr (h : g.undescribed = g'.undescribed)
    (hp : ∀ p, g.Produces p id → g.node? p = g'.node? p) : g.inputDescs id = g'.inputDescs id := by
  rw [inputDescs, inputDescs, node, node]
  cases hn : g.node? id with
  | none =>
    rw [node?_eq_none_of_mapNodes_eq h hn]
    rfl
  | some n =>
    obtain ⟨n', hn', heq⟩ := exists_node?_of_mapNodes_eq h hn
    obtain ⟨-, -, hinputs, -⟩ := Node.undescribed_eq_iff.1 heq
    rw [hn']
    show n.inputs.mapM g.desc = n'.inputs.mapM g'.desc
    rw [← hinputs]
    refine mapM_congr fun v hv => ?_
    have hprod : g.Produces v.node id :=
      produces_of_view? (view?_eq_some.2 ⟨n, hn, rfl⟩) hv
    rw [desc, desc, slot, slot, node, node, hp _ hprod]

/-- What inference finds at a node depends on the descriptions of its producers only. -/
theorem reinfer_congr (h : g.undescribed = g'.undescribed)
    (hp : ∀ p, g.Produces p id → g.node? p = g'.node? p) : g.reinfer id = g'.reinfer id := by
  rw [reinfer, reinfer, inputDescs_congr h hp, node, node]
  cases hn : g.node? id with
  | none => rw [node?_eq_none_of_mapNodes_eq h hn]
  | some n =>
    obtain ⟨n', hn', heq⟩ := exists_node?_of_mapNodes_eq h hn
    obtain ⟨-, hop, -⟩ := Node.undescribed_eq_iff.1 heq
    rw [hn']
    simp only [bind, Except.bind, hop, Node.description_of_undescribed_eq heq,
      Node.length_outputs_of_undescribed_eq heq]

theorem undescribed_withDescs {outs : List Desc} (h : g.reinfer id = .ok outs) :
    (g.modifyNode id (·.withDescs outs)).undescribed = g.undescribed :=
  mapNodes_modifyNode_eq fun _ hn => Node.undescribed_withDescs (length_of_reinfer h hn)

end Graph

namespace Edit

/-- Brings the listed nodes up to date, one after the other. -/
def revalidateAll (ids : List NodeId) : Edit Unit := ids.forM fun id => discard (revalidate id)

variable {g g' g₁ : Graph} {id : NodeId} {ids : List NodeId} {err : GraphError}

theorem revalidate_of_reinfer_error (h : g.reinfer id = .error err) :
    revalidate id g = .error err g :=
  bind_of_error (query_of_error h)

theorem revalidate_of_reinfer {outs : List Desc} (h : g.reinfer id = .ok outs) :
    ∃ changed, revalidate id g = .ok changed (g.modifyNode id (·.withDescs outs)) := by
  obtain ⟨n, -, hn, -⟩ := reinfer_eq_ok.1 h
  rw [revalidate, bind_of_ok (query_of_ok h), bind_of_ok (query_of_ok (Graph.node_eq_ok.2 hn))]
  exact ⟨_, rfl⟩

theorem revalidateAll_append (before after : List NodeId) :
    revalidateAll (before ++ after) = (do revalidateAll before; revalidateAll after) :=
  List.forM_append

theorem revalidateAll_singleton_of_reinfer {outs : List Desc} (h : g.reinfer id = .ok outs) :
    revalidateAll [id] g = .ok () (g.modifyNode id (·.withDescs outs)) := by
  obtain ⟨changed, hok⟩ := revalidate_of_reinfer h
  have hdiscard : discard (revalidate id) g = .ok () (g.modifyNode id (·.withDescs outs)) := by
    rw [discard_eq, bind_of_ok hok]
    rfl
  exact bind_eq_ok.2 ⟨(), _, hdiscard, rfl⟩

theorem revalidateAll_singleton_of_reinfer_error (h : g.reinfer id = .error err) :
    revalidateAll [id] g = .error err g := by
  have hdiscard : discard (revalidate id) g = .error err g := by
    rw [discard_eq, bind_of_error (revalidate_of_reinfer_error h)]
  exact bind_of_error hdiscard

/-- A run over some nodes and one more node has brought the others up to date before. -/
theorem revalidateAll_snoc_eq_ok :
    revalidateAll (ids ++ [id]) g = .ok () g₁ ↔
      ∃ g₂ outs, revalidateAll ids g = .ok () g₂ ∧ g₂.reinfer id = .ok outs ∧
        g₂.modifyNode id (·.withDescs outs) = g₁ := by
  rw [revalidateAll_append, bind_eq_ok]
  constructor
  · rintro ⟨_, g₂, h₂, hlast⟩
    refine ⟨g₂, ?_⟩
    cases hre : g₂.reinfer id with
    | error err =>
      rw [revalidateAll_singleton_of_reinfer_error hre] at hlast
      cases hlast
    | ok outs =>
      rw [revalidateAll_singleton_of_reinfer hre] at hlast
      cases hlast
      exact ⟨outs, h₂, rfl, rfl⟩
  · rintro ⟨g₂, outs, h₂, hre, rfl⟩
    exact ⟨(), g₂, h₂, revalidateAll_singleton_of_reinfer hre⟩

/-- Inference rejects the node `id` after it has brought the nodes before it in the list up to date. -/
def StopsAt (ids : List NodeId) (id : NodeId) (err : GraphError) (g : Graph) : Prop :=
  ∃ before after g₁, ids = before ++ id :: after ∧ revalidateAll before g = .ok () g₁ ∧
    revalidate id g₁ = .error err g₁ ∧ revalidateAll ids g = .error err g₁

theorem StopsAt.error (h : StopsAt ids id err g) : ∃ g₁, revalidateAll ids g = .error err g₁ := by
  obtain ⟨-, -, g₁, -, -, -, hall⟩ := h
  exact ⟨g₁, hall⟩

theorem StopsAt.append (h : StopsAt ids id err g) (more : List NodeId) :
    StopsAt (ids ++ more) id err g := by
  obtain ⟨before, after, g₁, rfl, hbefore, hid, hall⟩ := h
  refine ⟨before, after ++ more, g₁, by simp, hbefore, hid, ?_⟩
  rw [revalidateAll_append, bind_of_error hall]

theorem stopsAt_snoc (h : revalidateAll ids g = .ok () g₁) (hre : g₁.reinfer id = .error err) :
    StopsAt (ids ++ [id]) id err g := by
  refine ⟨ids, [], g₁, rfl, h, revalidate_of_reinfer_error hre, ?_⟩
  rw [revalidateAll_append, bind_of_ok h, revalidateAll_singleton_of_reinfer_error hre]

/-! ### One run -/

/-- The graph `g₁` is `g` with new descriptions of the listed nodes, which are up to date. -/
structure Refreshes (g : Graph) (ids : List NodeId) (g₁ : Graph) : Prop where
  undescribed_eq : g₁.undescribed = g.undescribed
  consistentAt : ∀ id ∈ ids, g₁.ConsistentAt id
  node?_eq : ∀ id ∉ ids, g₁.node? id = g.node? id

theorem produces_iff_of_undescribed_eq (h : g.undescribed = g'.undescribed) {p : NodeId} :
    g.Produces p id ↔ g'.Produces p id :=
  Graph.produces_iff_of_mapNodes_eq h fun _ => rfl

/-- One more node is brought up to date; those that are done do not read it. -/
theorem Refreshes.snoc {outs : List Desc} (h : Refreshes g ids g₁) (hid : id ∉ ids)
    (hfirst : ∀ j ∈ id :: ids, ∀ p, g.Produces p j → p ∈ ids) (hre : g₁.reinfer id = .ok outs) :
    Refreshes g (ids ++ [id]) (g₁.modifyNode id (·.withDescs outs)) := by
  have hfirst₁ : ∀ j ∈ id :: ids, ∀ p, g₁.Produces p j → p ∈ ids := fun j hj p hp =>
    hfirst j hj p ((produces_iff_of_undescribed_eq h.undescribed_eq).1 hp)
  have hview : ∀ j ∈ ids, (g₁.modifyNode id (·.withDescs outs)).view? j = g₁.view? j := by
    intro j hj
    rw [Graph.view?_modifyNode, if_neg]
    rintro rfl
    exact hid hj
  refine ⟨(Graph.undescribed_withDescs hre).trans h.undescribed_eq, ?_, ?_⟩
  · intro j hj
    rcases List.mem_append.1 hj with hj | hj
    · exact (h.consistentAt j hj).congr (hview j hj) fun v hv =>
        Graph.desc?_congr (hview v.node (hfirst₁ j (List.mem_cons_of_mem id hj) v.node hv))
    · rw [List.mem_singleton.1 hj]
      exact Graph.consistentAt_withDescs hre fun hself =>
        hid (hfirst₁ id List.mem_cons_self id hself)
  · intro j hj
    rw [List.mem_append, List.mem_singleton, not_or] at hj
    rw [Graph.node?_modifyNode, if_neg (Ne.symm hj.2)]
    exact h.node?_eq j hj.1

/-- A run that has answered leaves the listed nodes up to date and nothing else changed. -/
theorem refreshes_of_revalidateAll (hwf : g.WellFormed) (hnodup : ids.Nodup)
    (hbehind : g.ProducersBehind ids.reverse) (h : revalidateAll ids g = .ok () g₁) :
    Refreshes g ids g₁ := by
  induction ids using List.reverseRecOn generalizing g₁ with
  | nil =>
    cases h
    exact ⟨rfl, by simp, fun _ _ => rfl⟩
  | append_singleton ids id ih =>
    obtain ⟨g₂, outs, h₂, hre, rfl⟩ := revalidateAll_snoc_eq_ok.1 h
    rw [List.reverse_append, List.reverse_singleton, List.singleton_append] at hbehind
    have hid : id ∉ ids := fun hid => (List.nodup_append.1 hnodup).2.2 id hid id (by simp) rfl
    refine (ih (List.nodup_append.1 hnodup).1 hbehind.2 h₂).snoc hid (fun j hj p hp => ?_) hre
    rw [← List.mem_reverse]
    rcases List.mem_cons.1 hj with rfl | hj
    · exact hbehind.1 p hp (hwf.contains_of_produces hp)
    · exact Graph.mem_of_producersBehind hwf hbehind.2 (List.mem_reverse.2 hj) hp

/-! ### Two runs -/

/-- **Runs from graphs that differ in their descriptions stop at the same node or agree on what they
have brought up to date.** -/
theorem revalidateAll_congr (hwf : g.WellFormed) (h : g.undescribed = g'.undescribed)
    (hbehind : g.ProducersBehind ids.reverse) :
    (∃ id err, StopsAt ids id err g ∧ StopsAt ids id err g') ∨
      ∃ g₁ g₁', revalidateAll ids g = .ok () g₁ ∧ revalidateAll ids g' = .ok () g₁' ∧
        g₁.undescribed = g.undescribed ∧ g₁.undescribed = g₁'.undescribed ∧
        ∀ id ∈ ids, g₁.node? id = g₁'.node? id := by
  induction ids using List.reverseRecOn with
  | nil => exact Or.inr ⟨g, g', rfl, rfl, rfl, h, by simp⟩
  | append_singleton ids id ih =>
    rw [List.reverse_append, List.reverse_singleton, List.singleton_append] at hbehind
    obtain ⟨j, err, hg, hg'⟩ | ⟨g₁, g₁', hg, hg', hsame, heq, hdone⟩ := ih hbehind.2
    · exact Or.inl ⟨j, err, hg.append [id], hg'.append [id]⟩
    -- the producers of the node are done, so inference reads the same descriptions
    have hproducers : ∀ p, g₁.Produces p id → g₁.node? p = g₁'.node? p := by
      intro p hp
      have hp := (produces_iff_of_undescribed_eq hsame).1 hp
      exact hdone p (List.mem_reverse.1 (hbehind.1 p hp (hwf.contains_of_produces hp)))
    have hre := Graph.reinfer_congr heq hproducers
    cases hinfer : g₁.reinfer id with
    | error err =>
      exact Or.inl ⟨id, err, stopsAt_snoc hg hinfer, stopsAt_snoc hg' (hre ▸ hinfer)⟩
    | ok outs =>
      have hinfer' : g₁'.reinfer id = .ok outs := hre ▸ hinfer
      refine Or.inr ⟨_, _, revalidateAll_snoc_eq_ok.2 ⟨g₁, outs, hg, hinfer, rfl⟩,
        revalidateAll_snoc_eq_ok.2 ⟨g₁', outs, hg', hinfer', rfl⟩,
        (Graph.undescribed_withDescs hinfer).trans hsame, ?_, ?_⟩
      · rw [Graph.undescribed_withDescs hinfer, Graph.undescribed_withDescs hinfer', heq]
      · intro j hj
        rw [Graph.node?_modifyNode, Graph.node?_modifyNode]
        split
        next hid =>
          subst hid
          cases hn : g₁.node? id with
          | none => rw [Graph.node?_eq_none_of_mapNodes_eq heq hn]
          | some n =>
            obtain ⟨n', hn', hundescribed⟩ := Graph.exists_node?_of_mapNodes_eq heq hn
            rw [hn', Option.map_some, Option.map_some, Node.withDescs_congr hundescribed]
        next hid =>
          refine hdone j ((List.mem_append.1 hj).resolve_right fun hj => hid ?_)
          exact (List.mem_singleton.1 hj).symm

/-! ### The whole graph -/

/-- Inference has brought `g` up to date and has left `g₁`: what the boundary hangs on is consistent, a
second run changes nothing, and nothing but the descriptions of such nodes has changed. -/
structure Revalidated (g g₁ : Graph) : Prop where
  consistent : g₁.Consistent
  validate_eq : validate g₁ = .ok () g₁
  undescribed_eq : g₁.undescribed = g.undescribed
  node?_eq : ∀ id, ¬ g.Reachable id → g₁.node? id = g.node? id

theorem revalidated_of_validate (hwf : g.WellFormed) (ha : g.ReachablyAcyclic)
    (h : validate g = .ok () g₁) : Revalidated g g₁ := by
  have hr : Refreshes g g.order g₁ := refreshes_of_revalidateAll hwf g.order_nodup
    (Graph.producersBehind_order ha) h
  have hconsistent : g₁.Consistent := fun id hid => hr.consistentAt id <|
    (Graph.mem_order_iff hwf).2
      ((Graph.reachable_iff_of_mapNodes_eq hr.undescribed_eq fun _ => rfl).1 hid)
  exact ⟨hconsistent, validate_of_consistent hconsistent, hr.undescribed_eq,
    fun id hid => hr.node?_eq id fun hmem => hid (Graph.reachable_of_mem_order hmem)⟩

/-- **What inference does to a graph does not depend on the descriptions that it starts with**: two
graphs that differ in these only are refused at the same node with the same error, or are both brought
up to date and then agree on all that the boundary hangs on. -/
theorem validate_forgets_descs (hwf : g.WellFormed) (ha : g.ReachablyAcyclic)
    (hwf' : g'.WellFormed) (ha' : g'.ReachablyAcyclic) (h : g.undescribed = g'.undescribed) :
    (∃ id err g₁ g₁', validate g = .error err g₁ ∧ validate g' = .error err g₁' ∧
        StopsAt g.order id err g ∧ StopsAt g'.order id err g') ∨
      ∃ g₁ g₁', validate g = .ok () g₁ ∧ validate g' = .ok () g₁' ∧
        (∀ id, g.Reachable id → g₁.node? id = g₁'.node? id) ∧
        Revalidated g g₁ ∧ Revalidated g' g₁' := by
  have horder : g.order = g'.order := Graph.order_eq_of_mapNodes_eq h fun _ => rfl
  obtain ⟨id, err, hg, hg'⟩ | ⟨g₁, g₁', hg, hg', -, -, hdone⟩ :=
    revalidateAll_congr hwf h (Graph.producersBehind_order ha)
  · rw [horder] at hg'
    obtain ⟨g₁, hall⟩ := hg.error
    obtain ⟨g₁', hall'⟩ := hg'.error
    exact Or.inl ⟨id, err, g₁, g₁', hall, hall', hg, hg'⟩
  · rw [horder] at hg'
    exact Or.inr ⟨g₁, g₁', hg, hg', fun id hid => hdone id ((Graph.mem_order_iff hwf).2 hid),
      revalidated_of_validate hwf ha hg, revalidated_of_validate hwf' ha' hg'⟩

end Edit

namespace Graph

/-- A negation that has not been brought up to date after its parameter has got another type. -/
def staleNegation : Graph := single (.unary .negative) ⟨.f32, .ofShape [2]⟩ ⟨.i32, .ofShape [3]⟩

/-- The same graph up to date. -/
def freshNegation : Graph := single (.unary .negative) ⟨.f32, .ofShape [2]⟩ ⟨.f32, .ofShape [2]⟩

theorem undescribed_staleNegation : staleNegation.undescribed = freshNegation.undescribed := by
  with_unfolding_all rfl

/-- Inference repairs the stale descriptions. -/
theorem validate_forgets_descs_staleNegation :
    ∃ g₁, Edit.validate staleNegation = .ok () g₁ ∧
      (∀ id, staleNegation.Reachable id → g₁.node? id = freshNegation.node? id) ∧
      Edit.Revalidated staleNegation g₁ := by
  have hwf : staleNegation.WellFormed := wellFormed_single _ _ _
  have hwf' : freshNegation.WellFormed := wellFormed_single _ _ _
  have ha : staleNegation.ReachablyAcyclic := fun id _ => acyclic_single _ _ _ id
  have ha' : freshNegation.ReachablyAcyclic := fun id _ => acyclic_single _ _ _ id
  have hfresh : Edit.validate freshNegation = .ok () freshNegation :=
    Edit.validate_of_consistent (consistent_single rfl)
  obtain ⟨id, err, g₁, g₁', -, hstops, -⟩ | ⟨g₁, g₁', hstale, hok, hsame, hdone, -⟩ :=
    Edit.validate_forgets_descs hwf ha hwf' ha' undescribed_staleNegation
  · cases hfresh.symm.trans hstops
  · cases hfresh.symm.trans hok
    exact ⟨g₁, hstale, hsame, hdone⟩

end Graph

end OpGraph
