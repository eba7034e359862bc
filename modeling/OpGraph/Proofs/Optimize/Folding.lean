import OpGraph.Optimize.Folding
import OpGraph.Proofs.Graph.Rank
import OpGraph.Proofs.Graph.Single
import OpGraph.Proofs.Op.Conformance
import OpGraph.Proofs.Semantics.Trace

/-!
# Folding of constants preserves what a graph computes

The operations mean what they do on tensors.  A node is folded when its outputs follow from constants
and static shapes; what it produces in every run is then what the folding has computed
(`outs_eq_of_fold?`), so its readers may read constants instead.

The main statement is `foldConstants_preserves`.
-/

namespace OpGraph

/-- What operations do on tensors.  Where evaluation gives nothing, `rest` may; `inputs` are the tensors
of the parameters. -/
def tensorSemantics (rest : Op → List Tensor → Option (List Tensor)) (inputs : NodeId → Tensor) :
    Semantics Tensor := fun id op ts =>
  match op with
  | .parameter .. => if ts.isEmpty then some [inputs id] else none
  | .constant t => if ts.isEmpty then some [t] else none
  | .result => if ts.length = 1 then some ts else none
  | op => (op.evaluate ts).or (rest op ts)

/-- Values that are not computed by evaluation are described by inference. -/
def RestConforms (rest : Op → List Tensor → Option (List Tensor)) : Prop :=
  ∀ op ds os ts outs, List.Forall₂ Desc.Describes ds ts → op.infer ds = .ok os →
    rest op ts = some outs → List.Forall₂ Desc.Describes os outs

/-- Evaluation conforms to inference, and what is folded is what is evaluated. -/
structure Extension.Conforms (e : Extension) : Prop where
  describes_evaluate : ∀ ds os ts outs, List.Forall₂ Desc.Describes ds ts → e.infer ds = .ok os →
    e.evaluate ts = some outs → List.Forall₂ Desc.Describes os outs
  fold_eq : ∀ values descs, e.fold values descs = (allKnown values).bind e.evaluate

variable {rest : Op → List Tensor → Option (List Tensor)} {inputs : NodeId → Tensor}

theorem sound_of_conforms (hrest : RestConforms rest) {id : NodeId} {fr : Firing Tensor}
    (hext : ∀ e, fr.op = .extension e → e.Conforms)
    (hin : ∀ type shape, fr.op = .parameter type shape →
      Desc.Describes ⟨type, shape⟩ (inputs id))
    (hfire : tensorSemantics rest inputs id fr.op fr.args = some fr.outs) :
    fr.Sound Desc.Describes := by
  obtain ⟨op, args, outs⟩ := fr
  intro ds os hds hinfer
  dsimp only at *
  have hcomputed : (∀ os outs, op.infer ds = .ok os → op.evaluate args = some outs →
      List.Forall₂ Desc.Describes os outs) →
      (op.evaluate args).or (rest op args) = some outs →
      List.Forall₂ Desc.Describes os outs := by
    intro heval hor
    cases he : op.evaluate args with
    | some outs' =>
      rw [he, Option.some_or, Option.some.injEq] at hor
      exact hor ▸ heval os outs' hinfer he
    | none =>
      rw [he, Option.none_or] at hor
      exact hrest op ds os args outs hds hinfer hor
  have hbuilt : op.isBuiltIn → (op.evaluate args).or (rest op args) = some outs →
      List.Forall₂ Desc.Describes os outs := fun hop =>
    hcomputed fun _ _ hinfer he => Op.describes_evaluate hop hds hinfer he
  cases op with
  | parameter type shape =>
    obtain ⟨hempty, hout⟩ := Option.ite_none_right_eq_some.1 hfire
    obtain rfl := Option.some.inj hout
    exact Firing.sound_of_isEmpty hempty rfl (hin type shape rfl) ds os hds hinfer
  | constant t =>
    obtain ⟨hempty, hout⟩ := Option.ite_none_right_eq_some.1 hfire
    obtain rfl := Option.some.inj hout
    exact Firing.sound_of_isEmpty hempty rfl t.describes_desc ds os hds hinfer
  | result =>
    obtain ⟨-, hout⟩ := Option.ite_none_right_eq_some.1 hfire
    obtain rfl := Option.some.inj hout
    exact Firing.sound_result args ds os hds hinfer
  | extension e => exact hcomputed ((hext e rfl).describes_evaluate ds · args · hds) hfire
  | binary op rule => exact hbuilt rfl hfire
  | unary op => exact hbuilt rfl hfire
  | concat axis => exact hbuilt rfl hfire
  | convert destination => exact hbuilt rfl hfire
  | shapeOf => exact hbuilt rfl hfire
  | convolution c => exact hbuilt rfl hfire
  | maxPool p => exact hbuilt rfl hfire

/-! ### What is folded -/

namespace Graph

variable {g : Graph} {id : NodeId}

theorem fold?_eq_some {values : List Tensor} (h : g.fold? id = .ok (some values)) :
    ∃ w ds, g.view? id = some w ∧ w.op.kind ≠ .parameter ∧ w.op.kind ≠ .result ∧
      w.op.kind ≠ .constant ∧ List.Forall₂ (fun v d => g.desc? v = some d) w.inputs ds ∧
      w.op.fold (w.inputs.map g.constantValue?) ds = some values ∧
      values.length = w.descs.length := by
  unfold fold? at h
  cases hn : g.node id with
  | error e =>
    rw [hn] at h
    cases h
  | ok n =>
    rw [hn] at h
    simp only [bind, Except.bind, pure, Except.pure] at h
    split at h
    next => cases h
    next hkind =>
      obtain ⟨hp, hr, hc⟩ : n.kind ≠ .parameter ∧ n.kind ≠ .result ∧ n.kind ≠ .constant := by
        simpa [not_or] using hkind
      cases hds : g.inputDescs id with
      | error e =>
        rw [hds] at h
        cases h
      | ok ds =>
        rw [hds] at h
        obtain ⟨m, hm, hdescs⟩ := Edit.inputDescs_eq_ok.1 hds
        obtain rfl := Option.some.inj ((node_eq_ok.1 hn).symm.trans hm)
        simp only [desc_eq_ok_iff_desc?] at hdescs
        dsimp only at h
        split at h
        next vs hfold =>
          obtain ⟨hlen, hvs⟩ := Option.ite_none_right_eq_some.1 (Except.ok.inj h)
          obtain rfl := Option.some.inj hvs
          refine ⟨n.view, ds, view?_eq_some.2 ⟨n, hm, rfl⟩, hp, hr, hc, hdescs, hfold, ?_⟩
          rw [hlen, Node.length_descs]
        next => cases h

end Graph

/-! ### One node -/

theorem fold_shapeOf_eq_some {values : List (Option Tensor)} {ds : List Desc} {ts : List Tensor}
    (h : Op.shapeOf.fold values ds = some ts) :
    ∃ d s t, ds = [d] ∧ d.shape.toShape? = some s ∧ Op.shapeTensor? s = some t ∧ ts = [t] := by
  match ds, h with
  | [], h => cases h
  | [d], h =>
    obtain ⟨t, ht, rfl⟩ := Option.map_eq_some_iff.1 h
    obtain ⟨s, hs, ht⟩ := Option.bind_eq_some_iff.1 ht
    exact ⟨d, s, t, rfl, hs, ht, rfl⟩
  | _ :: _ :: _, h => cases h

namespace Op

/-- Built-in operations have a single output tensor. -/
theorem evaluate_singleton {op : Op} (hop : op.isBuiltIn) {ts outs : List Tensor}
    (h : op.evaluate ts = some outs) : ∃ t, outs = [t] := by
  cases op with
  | parameter type shape => cases h
  | constant t => cases h
  | result => cases h
  | convolution c => cases h
  | maxPool p => cases h
  | extension e => cases hop
  | binary op rule =>
    match ts, h with
    | [a, b], h =>
      obtain ⟨type, -, h⟩ := Option.bind_eq_some_iff.1 h
      obtain ⟨-, h⟩ := Option.ite_none_left_eq_some.1 h
      obtain ⟨t, -, h⟩ := Option.bind_eq_some_iff.1 h
      exact ⟨t, (Option.some.inj h).symm⟩
  | unary op =>
    match ts, h with
    | [a], h => exact ⟨_, (Option.some.inj h).symm⟩
  | concat axis =>
    obtain ⟨first, -, h⟩ := Option.bind_eq_some_iff.1 h
    obtain ⟨axis, -, h⟩ := Option.bind_eq_some_iff.1 h
    obtain ⟨type, -, h⟩ := Option.bind_eq_some_iff.1 h
    obtain ⟨t, -, h⟩ := Option.bind_eq_some_iff.1 h
    exact ⟨t, (Option.some.inj h).symm⟩
  | convert destination =>
    match ts, h with
    | [t], h => exact ⟨_, (Option.some.inj h).symm⟩
  | shapeOf =>
    match ts, h with
    | [t], h =>
      obtain ⟨r, -, rfl⟩ := Option.map_eq_some_iff.1 h
      exact ⟨r, rfl⟩

theorem fold_singleton {op : Op} (hop : op.isBuiltIn) {values : List (Option Tensor)}
    {ds : List Desc} {outs : List Tensor} (h : op.fold values ds = some outs) : ∃ t, outs = [t] := by
  have hdefault : (allKnown values).bind op.evaluate = some outs → ∃ t, outs = [t] := by
    intro h
    obtain ⟨ts, -, h⟩ := Option.bind_eq_some_iff.1 h
    exact evaluate_singleton hop h
  cases op with
  | shapeOf =>
    obtain ⟨d, s, t, -, -, -, rfl⟩ := fold_shapeOf_eq_some h
    exact ⟨t, rfl⟩
  | extension e => cases hop
  | _ => exact hdefault h

end Op

/-- What inference and the folding of a node keep is kept by the folding of all nodes. -/
theorem Edit.keeps_foldNodes_of {P : Graph → Prop}
    (hrevalidate : ∀ id, Keeps P Anything (revalidate id))
    (hfold : ∀ id, Keeps P Anything (foldNode id)) (ids : List NodeId) (changed : Bool) :
    Keeps P Anything (foldNodes ids changed) := by
  induction ids generalizing changed with
  | nil => exact keeps_pure changed
  | cons id ids ih =>
    rw [foldNodes]
    refine keeps_bind keeps_get fun g => ?_
    split
    · have hrest := keeps_bind (hfold id) fun folded => ih (changed || folded)
      dsimp only
      split
      · exact keeps_bind (hrevalidate id) fun _ => hrest
      · exact hrest
    · exact ih changed

/-- Tensors, and the descriptions that fit them. -/
def tensorSetting (rest : Op → List Tensor → Option (List Tensor)) (inputs : NodeId → Tensor)
    (results : List NodeId) : Setting Tensor where
  semantics := tensorSemantics rest inputs
  describes := Desc.Describes
  fits fr := ∀ e, fr.op = .extension e → e.Conforms
  results := results

section

variable {results : List NodeId} {W : Trace Tensor} {rank : NodeId → Nat} {g : Graph}
  (h : g.Follows (tensorSetting rest inputs results) W rank)

include h

theorem eq_of_constantValue? {v : Output} {a t : Tensor} (hv : W.Holds v a)
    (ht : g.constantValue? v = some t) : a = t := by
  obtain ⟨fr, hW, ha⟩ := hv
  obtain ⟨w, hw, hop⟩ := Graph.constantValue?_eq_some.1 ht
  have hfire := h.fires hW
  rw [← h.op_eq hW hw, hop] at hfire
  obtain ⟨-, hout⟩ := Option.ite_none_right_eq_some.1 hfire
  rw [← Option.some.inj hout] at ha
  exact List.mem_singleton.1 (List.mem_of_getElem? ha)

theorem args_eq_of_allKnown {id : NodeId} {fr : Firing Tensor} {w : Node.View} (hW : W id fr)
    (hw : g.view? id = some w) {ts : List Tensor}
    (hts : allKnown (w.inputs.map g.constantValue?) = some ts) : ts = fr.args := by
  have hknown := List.forall₂_map_left_iff.1 (mapM_eq_some.1 hts)
  have hin := h.inputs hW hw
  refine List.ext_getElem (hknown.length_eq.symm.trans hin.length_eq) fun k hk hk' => ?_
  obtain ⟨v, hv, ht⟩ := forall₂_getElem?_right hknown (List.getElem?_eq_getElem hk)
  obtain ⟨a, ha, hva, -⟩ := forall₂_getElem? hin hv
  rw [List.getElem?_eq_getElem hk', Option.some.injEq] at ha
  rw [ha]
  exact (eq_of_constantValue? h hva ht).symm

/-- **What is folded is what the node produces.** -/
theorem outs_eq_of_fold? {id : NodeId} {fr : Firing Tensor} (hW : W id fr) {values : List Tensor}
    (hfold : g.fold? id = .ok (some values)) : fr.outs = values := by
  obtain ⟨w, ds, hw, hp, hr, hc, hds, hfold, -⟩ := Graph.fold?_eq_some hfold
  have hop := h.op_eq hW hw
  have hfire := h.fires hW
  have heval : ∀ ts, allKnown (w.inputs.map g.constantValue?) = some ts →
      w.op.evaluate ts = some values → fr.op.evaluate fr.args = some values := by
    intro ts hts he
    rwa [args_eq_of_allKnown h hW hw hts, hop] at he
  -- the operations that fold as they evaluate
  have hdefault : (allKnown (w.inputs.map g.constantValue?)).bind w.op.evaluate = some values →
      (fr.op.evaluate fr.args).or (rest fr.op fr.args) = some fr.outs → fr.outs = values := by
    intro hbind hor
    obtain ⟨ts, hts, he⟩ := Option.bind_eq_some_iff.1 hbind
    rw [heval ts hts he, Option.some_or, Option.some.injEq] at hor
    exact hor.symm
  obtain ⟨op, args, outs⟩ := fr
  dsimp only at hop hfire hdefault ⊢
  subst hop
  cases hop : w.op with
  | parameter type shape => exact absurd (congrArg Op.kind hop) hp
  | constant t => exact absurd (congrArg Op.kind hop) hc
  | result => exact absurd (congrArg Op.kind hop) hr
  | shapeOf =>
    -- the shape is known ahead of time, and the tensor that arrives has it
    rw [hop] at hfold hfire
    obtain ⟨d, s, r, rfl, hs, hr, rfl⟩ := fold_shapeOf_eq_some hfold
    have hin := h.inputs hW hw
    obtain ⟨v, hv⟩ := List.length_eq_one_iff.1 hds.length_eq
    rw [hv] at hds hin
    obtain ⟨t, rfl⟩ := List.length_eq_one_iff.1 hin.length_eq.symm
    obtain ⟨⟨hvt, -⟩, -⟩ := List.forall₂_cons.1 hin
    have hshape := (h.describes_of_holds hvt (List.forall₂_cons.1 hds).1).2
    rw [PartialShape.toShape?_eq_some.1 hs, PartialShape.admits_ofShape] at hshape
    have heval : Op.shapeOf.evaluate [t] = some [r] := by
      show (Op.shapeTensor? t.shape).map ([·]) = _
      rw [← hshape, hr]
      rfl
    exact (Option.some.inj ((congrArg (Option.or · _) heval).symm.trans hfire)).symm
  | extension e =>
    rw [hop] at hfold hfire hdefault
    rw [Op.fold, (h.fits hW e hop).fold_eq] at hfold
    exact hdefault hfold hfire
  | _ =>
    rw [hop] at hfold hfire hdefault
    exact hdefault hfold hfire

omit h in
theorem addNamedConstant_eq_ok {name : String} {t : Tensor} {v : Output} {g' : Graph}
    (hok : Edit.addNamedConstant name t g = .ok v g') :
    v = ⟨g.nodes.size, 0⟩ ∧
      Edit.setName g.nodes.size name (g.insert (.constant t) [] [t.desc]) = .ok () g' := by
  unfold Edit.addNamedConstant at hok
  obtain ⟨v', g₁, hadd, hok⟩ := bind_eq_ok.1 hok
  obtain ⟨rfl, rfl⟩ := Edit.addConstant_eq_ok hadd
  obtain ⟨u, g₂, hname, hok⟩ := bind_eq_ok.1 hok
  obtain ⟨rfl, rfl⟩ := pure_eq_ok.1 hok
  exact ⟨rfl, hname⟩

/-- A constant that is added holds its tensor. -/
theorem follows_addNamedConstant {name : String} {t : Tensor} {v : Output} {g' : Graph}
    (hok : Edit.addNamedConstant name t g = .ok v g') :
    v = ⟨g.nodes.size, 0⟩ ∧
      g'.Follows (tensorSetting rest inputs results) (W.add g.nodes.size ⟨.constant t, [], [t]⟩)
        (Function.update rank g.nodes.size 0) ∧
      g.nodes.size + 1 ≤ g'.nodes.size := by
  obtain ⟨rfl, hname⟩ := addNamedConstant_eq_ok hok
  have hsound : Firing.Sound Desc.Describes ⟨.constant t, [], [t]⟩ := by
    intro ds os hds hinfer
    cases hds
    obtain rfl := Except.ok.inj hinfer
    exact .cons t.describes_desc .nil
  have hkind := (Op.constant_declares_nothing t).2
  have hfits : (tensorSetting rest inputs results).fits ⟨.constant t, [], [t]⟩ := by
    intro e he
    cases he
  have hf : Graph.Follows (tensorSetting rest inputs results)
      (W.add g.nodes.size ⟨.constant t, [], [t]⟩) (Function.update rank g.nodes.size 0)
      (g.insert (.constant t) [] [t.desc]) :=
    h.insert_firing ⟨.constant t, [], [t]⟩ hkind (by simp) rfl hsound hfits .nil
      (.cons t.describes_desc .nil) (by simp)
  have hsize : g.nodes.size + 1 ≤ (g.insert (.constant t) [] [t.desc]).nodes.size :=
    Nat.le_of_eq (Graph.size_insert ..).symm
  have hherit : Edit.Hereditary fun g' => Graph.Follows (tensorSetting rest inputs results)
      (W.add g.nodes.size ⟨.constant t, [], [t]⟩) (Function.update rank g.nodes.size 0) g' ∧
      g.nodes.size + 1 ≤ g'.nodes.size := Graph.hereditary_follows.and_size_le _
  exact ⟨rfl, (Edit.keeps_setName_of_renamable hherit.renamable _ name).of_ok ⟨hf, hsize⟩ hname⟩

/-- Constants are added one after the other, and each holds its tensor. -/
theorem follows_mapM_addNamedConstant {f : Tensor × Nat → Edit Output}
    (hf : ∀ e, ∃ name, f e = Edit.addNamedConstant name e.1) {l : List (Tensor × Nat)}
    {vs : List Output} {g' : Graph} (hok : l.mapM f g = .ok vs g') :
    ∃ W' rank', W.Extends g.nodes.size rank W' rank' ∧
      g'.Follows (tensorSetting rest inputs results) W' rank' ∧ g.nodes.size ≤ g'.nodes.size ∧
      List.Forall₂ (fun v e => W'.Holds v e.1 ∧ rank' v.node = 0) vs l := by
  induction l generalizing g W rank vs with
  | nil =>
    obtain ⟨rfl, rfl⟩ := pure_eq_ok.1 hok
    exact ⟨W, rank, Trace.Extends.refl W rank _, h, Nat.le_refl _, .nil⟩
  | cons e l ih =>
    rw [List.mapM_cons] at hok
    obtain ⟨v, g₁, hv, hok⟩ := bind_eq_ok.1 hok
    obtain ⟨vs', g₂, hvs, hok⟩ := bind_eq_ok.1 hok
    obtain ⟨rfl, rfl⟩ := pure_eq_ok.1 hok
    obtain ⟨name, hname⟩ := hf e
    rw [hname] at hv
    obtain ⟨rfl, h₁, hsize⟩ := follows_addNamedConstant h hv
    obtain ⟨W', rank', hext, h', hsize', hall⟩ := ih h₁ hvs
    have hnew := hext g.nodes.size hsize
    refine ⟨W', rank', (W.extends_add rank _ 0 _).trans hext (Nat.le_of_succ_le hsize), h',
      Nat.le_trans (Nat.le_of_succ_le hsize) hsize', .cons ⟨⟨_, (hnew.1 _).2 (Or.inr ⟨rfl, rfl⟩),
        rfl⟩, ?_⟩ hall⟩
    rw [hnew.2, Function.update_self]

omit h in
theorem keeps_inheritMetadata_of_inheritable {P : Graph → Prop} {old new : NodeId}
    (hP : Edit.Inheritable P old new) (id : NodeId) (v : Output) :
    Keeps P Edit.Anything (Edit.inheritMetadata id v) :=
  keeps_bind (Edit.keeps_asking _) fun _ =>
    keeps_forM fun i _ => Edit.keeps_copyMetadata_of_inheritable hP [id, i.node] [i.node]

omit h in
theorem keeps_inheritMetadata {P : Graph → Prop} (hP : Edit.Renamable P) (id : NodeId)
    (v : Output) : Keeps P Edit.Anything (Edit.inheritMetadata id v) :=
  keeps_inheritMetadata_of_inheritable (hP.inheritable 0 0) id v

theorem ends_foldNode (id : NodeId) :
    Ends (Graph.Continues (tensorSetting rest inputs results) g.nodes.size W rank) Edit.Anything
      (Edit.foldNode id g) := by
  rw [Edit.foldNode]
  refine Edit.ends_query_bind fun n hn => Edit.ends_query_bind fun r hr => ?_
  cases r with
  | none => exact h.continues
  | some values =>
    refine ends_bind_of_ok (fun _ => trivial) fun vs g₁ hvs => ?_
    obtain ⟨W', rank', hext, h', hsize, hall⟩ :=
      follows_mapM_addNamedConstant h (fun e => ⟨_, rfl⟩) hvs
    -- each output of the node has a constant that stands for it
    have hstands : ∀ k v, vs[k]? = some v → W'.Stands rank' ⟨id, k⟩ v := by
      intro k v hv a hx
      rcases hx with ⟨fr, hfr, ha⟩
      have hlt := Graph.lt_size_of_node? (Graph.node_eq_ok.1 hn)
      have hout := outs_eq_of_fold? h (((hext id hlt).1 fr).1 hfr) hr
      obtain ⟨e, he, hve, hrank⟩ := forall₂_getElem? hall hv
      rw [List.getElem?_zipIdx] at he
      obtain ⟨t, ht, rfl⟩ := Option.map_eq_some_iff.1 he
      rw [hout, ht, Option.some.injEq] at ha
      exact ⟨ha ▸ hve, hrank ▸ Nat.zero_le _⟩
    have hP : Edit.Hereditary fun g' =>
        g'.Follows (tensorSetting rest inputs results) W' rank' ∧ g.nodes.size ≤ g'.nodes.size :=
      Graph.hereditary_follows.and_size_le _
    refine h'.ends_continues hext hsize ?_
    refine keeps_bind (Edit.keeps_replaceNodeWith_of_movable hP.renamable fun k v hv =>
      (Graph.movable_follows (hstands k v hv)).and_size_le g.nodes.size) fun _ => ?_
    refine keeps_bind (keeps_forM fun v _ => keeps_inheritMetadata hP.renamable id v) fun _ => ?_
    exact keeps_bind (Edit.keeps_release_of_hereditary hP [id]) fun _ => keeps_pure true

omit h in
theorem keeps_foldNodes (n : Nat) (ids : List NodeId) (changed : Bool) :
    Keeps (Graph.Continues (tensorSetting rest inputs results) n W rank) Edit.Anything
      (Edit.foldNodes ids changed) :=
  Edit.keeps_foldNodes_of (Graph.keeps_revalidate_continues n)
    (fun id => Graph.keeps_continues (fun h => ends_foldNode h id) n) ids changed

end

/-- **Folding preserves what a graph computes.**  In a graph without cycles whose descriptions are up to
date, whenever all nodes that the boundary hangs on evaluate, every result reads the same tensor before
and after the pass. -/
theorem foldConstants_preserves {g g' : Graph} {changed : Bool} (hwf : g.WellFormed)
    (hacyclic : g.Acyclic) (hcons : g.Consistent) (hrest : RestConforms rest)
    (hext : ∀ id e, g.Reachable id → g.op? id = some (.extension e) → e.Conforms)
    (hin : g.AcceptsInputs Desc.Describes inputs)
    (heval : ∀ id, g.Reachable id → ∃ fr, g.Fires (tensorSemantics rest inputs) id fr)
    (hrun : Edit.foldConstants g = .ok changed g') :
    g'.results = g.results ∧ ∀ r ∈ g.results,
      (∀ t, g'.Arrives (tensorSemantics rest inputs) r t ↔
        g.Arrives (tensorSemantics rest inputs) r t) ∧
      (g.op? r = some .result → ∃ t, g.Arrives (tensorSemantics rest inputs) r t) := by
  obtain ⟨rank, hrank⟩ := Graph.exists_rank hwf hacyclic
  have hsound : ∀ {id fr}, g.Reachable id → g.Fires (tensorSemantics rest inputs) id fr →
      fr.Sound Desc.Describes := by
    intro id fr hr h
    have hop := h.op?_eq
    rcases h with ⟨w, -, -, -, hfire⟩
    exact sound_of_conforms hrest (fun e he => hext id e hr (he ▸ hop))
      (fun type shape hp => hin id type shape hr (hp ▸ hop)) hfire
  have hfits : ∀ {id fr}, g.Reachable id → g.Fires (tensorSemantics rest inputs) id fr →
      ∀ e, fr.op = .extension e → e.Conforms := by
    intro id fr hr h e he
    exact hext id e hr (he ▸ h.op?_eq)
  have hstart : g.Follows (tensorSetting rest inputs g.results)
      (g.start (tensorSemantics rest inputs)) rank :=
    Graph.follows_start hwf hcons hrank rfl hsound hfits
  have hend : g'.Continues (tensorSetting rest inputs g.results) g.nodes.size
      (g.start (tensorSemantics rest inputs)) rank := by
    obtain ⟨_, _, hget, hfold⟩ := bind_eq_ok.1 hrun
    obtain ⟨rfl, rfl⟩ := get_eq_ok.1 hget
    exact (keeps_foldNodes g.nodes.size _ false).of_ok hstart.continues hfold
  refine ⟨hend.results_eq, fun r hr => ?_⟩
  have hreach := Graph.Reachable.result hr
  obtain ⟨fr, hfires⟩ := heval r hreach
  have hW : g.start (tensorSemantics rest inputs) r fr := ⟨hreach, hfires⟩
  have hlt := hstart.lt_size hW
  have hbefore := fun t => hstart.continues.arrives_iff (a := t) hlt hW hr
  refine ⟨fun t => (hend.arrives_iff hlt hW hr).trans (hbefore t).symm, fun hop => ?_⟩
  have hone : fr.args.length = 1 := by
    have hfr : fr.op = .result := Option.some.inj (hfires.op?_eq.symm.trans hop)
    obtain ⟨w, -, -, -, hfire⟩ := hfires
    rw [hfr] at hfire
    exact (Option.ite_none_right_eq_some.1 hfire).1
  obtain ⟨t, ht⟩ := List.length_eq_one_iff.1 hone
  exact ⟨t, (hbefore t).2 (by rw [ht, List.getElem?_cons_zero])⟩

/-! ### The shape of a pair -/

namespace Graph

/-- The shape of a pair is a result. -/
def shapeOfPair : Graph := single .shapeOf ⟨.f32, .ofShape [2]⟩ ⟨.i64, .ofShape [1]⟩

/-- The shape of a pair as a tensor. -/
def lengthOfPair : Tensor := .ofList .i64 [1] [.ofNat 2] rfl rfl

/-- The graph whose result has moved to a constant. -/
def shapeOfPairMoved : Graph :=
  endState (do
    let v ← Edit.addNamedConstant "ShapeOf_1" lengthOfPair
    Edit.replaceNodeWith 1 [v]
    Edit.inheritMetadata 1 v) shapeOfPair

theorem release_shapeOfPairMoved : shapeOfPairMoved.release [1] = shapeOfPairMoved.detach 1 := by
  have hun : shapeOfPairMoved.isReleasable 1 = true := rfl
  have hparam : (shapeOfPairMoved.detach 1).isReleasable 0 = false := rfl
  show shapeOfPairMoved.releaseStack [1] = _
  rw [releaseStack, if_pos hun]
  show (shapeOfPairMoved.detach 1).releaseStack [0] = _
  rw [releaseStack, if_neg (by simp [hparam]), releaseStack]

theorem foldConstants_shapeOfPair : ∃ g', Edit.foldConstants shapeOfPair = .ok true g' := by
  have horder : shapeOfPair.order = [0, 1, 2] := by decide +kernel
  show ∃ g', Edit.foldNodes shapeOfPair.order false shapeOfPair = .ok true g'
  rw [horder]
  show ∃ g', (do
    let folded ← Edit.foldNode 1
    Edit.foldNodes [2] folded : Edit Bool) shapeOfPair = .ok true g'
  have hone : Edit.foldNode 1 shapeOfPair = .ok true (shapeOfPairMoved.detach 1) := by
    rw [← release_shapeOfPairMoved]
    rfl
  exact ⟨_, bind_eq_ok.2 ⟨true, shapeOfPairMoved.detach 1, hone, rfl⟩⟩

/-- Nothing but evaluation, on a pair of zeros. -/
def pairSemantics : Semantics Tensor :=
  tensorSemantics (fun _ _ => none) fun _ => .filled .f32 [2] 0

theorem fires_shape_shapeOfPair :
    shapeOfPair.Fires pairSemantics 1
      ⟨.shapeOf, [.filled .f32 [2] 0], [lengthOfPair]⟩ := by
  have hparam : shapeOfPair.Fires pairSemantics 0
      ⟨.parameter .f32 (.ofShape [2]), [], [.filled .f32 [2] 0]⟩ := ⟨_, rfl, rfl, .nil, rfl⟩
  exact ⟨_, rfl, rfl, .cons (computes_iff.2 ⟨_, hparam, rfl⟩) .nil, rfl⟩

theorem fires_shapeOfPair {id : NodeId} (h : shapeOfPair.contains id) :
    ∃ fr, shapeOfPair.Fires pairSemantics id fr := by
  match id, lt_three_of_contains_single h with
  | 0, _ => exact ⟨⟨_, [], _⟩, _, rfl, rfl, .nil, rfl⟩
  | 1, _ => exact ⟨_, fires_shape_shapeOfPair⟩
  | 2, _ =>
    exact ⟨⟨.result, [lengthOfPair], [lengthOfPair]⟩, _, rfl, rfl,
      .cons (computes_iff.2 ⟨_, fires_shape_shapeOfPair, rfl⟩) .nil, rfl⟩

theorem foldConstants_preserves_shapeOfPair :
    ∃ g', Edit.foldConstants shapeOfPair = .ok true g' ∧ g'.results = [2] ∧
      g'.Arrives pairSemantics 2 lengthOfPair := by
  obtain ⟨g', hrun⟩ := foldConstants_shapeOfPair
  have hwf : shapeOfPair.WellFormed := wellFormed_single _ _ _
  have hrest : RestConforms fun _ _ => none := by
    intro op ds os ts outs _ _ h
    cases h
  have hin : shapeOfPair.AcceptsInputs Desc.Describes fun _ => .filled .f32 [2] 0 := by
    intro id type shape hr hp
    obtain hp | hp | hp := op?_single hp <;> cases hp
    exact Tensor.describes_desc (.filled .f32 [2] 0)
  have hext (id : NodeId) (e : Extension) (hr : shapeOfPair.Reachable id)
      (he : shapeOfPair.op? id = some (.extension e)) : e.Conforms := by
    obtain he | he | he := op?_single he <;> cases he
  obtain ⟨hresults, harrives⟩ := foldConstants_preserves hwf (acyclic_single _ _ _)
    (consistent_single rfl) hrest hext hin
    (fun id hr => fires_shapeOfPair (hwf.contains_of_reachable hr)) hrun
  have hbefore : shapeOfPair.Arrives pairSemantics 2 lengthOfPair :=
    ⟨⟨1, 0⟩, rfl, computes_iff.2 ⟨_, fires_shape_shapeOfPair, rfl⟩⟩
  exact ⟨g', hrun, hresults, ((harrives 2 (List.mem_singleton.2 rfl)).1 _).2 hbefore⟩

end Graph

end OpGraph
