import OpGraph.Pass.Basic
import OpGraph.Proofs.Rule.Traversal
import OpGraph.Proofs.Semantics.Interpretation

/-!
# Rewriting under an interpretation

A rewritten graph is checked against a trace of values with their descriptions.  What the trace has is
described truly and has a known rank, and constants have their tensors.

`exists_scaled` adds a product with a constant in the place of a node that produces the same;
`Rule.respects_ofEdit` lifts a rule that continues every trace to a run of rules.
-/

namespace OpGraph

namespace Interpretation

/-- The values of an interpretation with their descriptions. -/
def setting (I : Interpretation) (inputs : NodeId → I.Value) (results : List NodeId) :
    Setting (I.Value × Desc) where
  semantics := (I.semantics inputs).described
  describes d x := d = x.2
  fits fr := fr.op.isBuiltIn ∧ ∀ x ∈ fr.outs, x.2.shape.isRanked ∧ I.Describes x.2 x.1
  results := results

variable {I : Interpretation} {inputs : NodeId → I.Value} {results : List NodeId}
  {W : Trace (I.Value × Desc)} {rank : NodeId → Nat} {g : Graph}
  (h : g.Follows (I.setting inputs results) W rank)

include h

theorem fits_of_holds {v : Output} {x : I.Value × Desc} (hv : W.Holds v x) :
    x.2.shape.isRanked ∧ I.Describes x.2 x.1 := by
  obtain ⟨fr, hW, hx⟩ := hv
  exact (h.fits hW).2 x (List.mem_of_getElem? hx)

theorem eq_of_holds_constant {v : Output} {x : I.Value × Desc} (hv : W.Holds v x) {t : Tensor}
    (ht : g.constantValue? v = some t) :
    t.elementType.isStatic ∧ x = (I.ofTensor t, t.desc) := by
  obtain ⟨fr, hW, hx⟩ := hv
  obtain ⟨w, hw, hop⟩ := Graph.constantValue?_eq_some.1 ht
  obtain ⟨hvalue, hdesc⟩ := Semantics.described_eq_some.1 (h.fires hW)
  rw [← h.op_eq hW hw, hop] at hvalue hdesc
  obtain ⟨⟨hempty, hstatic⟩, hout⟩ := Option.ite_none_right_eq_some.1 hvalue
  rw [List.map_eq_nil_iff.1 (List.isEmpty_iff.1 hempty)] at hdesc
  have houts : fr.outs = [(I.ofTensor t, t.desc)] :=
    List.zip_of_prod (Option.some.inj hout).symm (Except.ok.inj hdesc).symm
  rw [houts] at hx
  exact ⟨hstatic, List.mem_singleton.1 (List.mem_of_getElem? hx)⟩

/-- What a binary operation has read and produced. -/
theorem exists_of_binary {root : NodeId} {fr : Firing (I.Value × Desc)} (hfr : W root fr)
    {w : Node.View} (hw : g.view? root = some w) {op : BinaryOp} {rule : Broadcast}
    (hop : w.op = .binary op rule) {x y : Output} (hin : w.inputs = [x, y]) :
    ∃ a b u, fr.outs = [u] ∧ (W.Holds x a ∧ rank x.node < rank root) ∧
      (W.Holds y b ∧ rank y.node < rank root) ∧
      I.apply (.binary op rule) [a.1, b.1] = some [u.1] ∧
      BinaryOp.infer rule [a.2, b.2] = .ok [u.2] := by
  obtain ⟨hvalue, hdesc⟩ := Semantics.described_eq_some.1 (h.fires hfr)
  have hargs := h.inputs hfr hw
  rw [hin] at hargs
  obtain ⟨a, as, hxa, hargs, hfrargs⟩ := List.forall₂_cons_left_iff.1 hargs
  obtain ⟨b, bs, hyb, hnil, rfl⟩ := List.forall₂_cons_left_iff.1 hargs
  obtain rfl := List.forall₂_nil_left_iff.1 hnil
  rw [← h.op_eq hfr hw, hop, hfrargs] at hvalue hdesc
  have hinfer : BinaryOp.infer rule [a.2, b.2] = .ok (fr.outs.map (·.2)) := hdesc
  obtain ⟨-, -, type, shape, -, -, -, -, houts⟩ := BinaryOp.infer_eq_ok.1 hinfer
  obtain ⟨u, hu, -⟩ := List.map_eq_singleton_iff.1 houts
  rw [hu] at hvalue hinfer
  exact ⟨a, b, u, hu, hxa, hyb, hvalue, hinfer⟩

/-- The graph with one more constant. -/
theorem follows_insert_constant (hI : I.Lawful) {t : Tensor} (ht : t.elementType.isStatic) :
    Graph.Follows (I.setting inputs results)
      (W.add g.nodes.size ⟨.constant t, [], [(I.ofTensor t, t.desc)]⟩)
      (Function.update rank g.nodes.size 0) (g.insert (.constant t) [] [t.desc]) := by
  have hkind := (Op.constant_declares_nothing t).2
  have hfire : (I.semantics inputs).described g.nodes.size (.constant t) [] =
      some [(I.ofTensor t, t.desc)] :=
    Semantics.described_eq_some.2 ⟨if_pos ⟨rfl, ht⟩, rfl⟩
  have hfits : (I.setting inputs results).fits ⟨.constant t, [], [(I.ofTensor t, t.desc)]⟩ := by
    refine ⟨rfl, fun x hx => ?_⟩
    obtain rfl := List.mem_singleton.1 hx
    exact ⟨rfl, describes_of_desc_eq (hI.desc_ofTensor t ht)⟩
  exact h.insert_firing ⟨.constant t, [], [(I.ofTensor t, t.desc)]⟩ hkind (by simp) hfire
    (Semantics.sound_of_described hfire) hfits .nil (.cons rfl .nil) (by simp)

/-- The graph with one more binary operation. -/
theorem follows_insert_binary {op : BinaryOp} {rule : Broadcast} {x y : Output}
    {a b u : I.Value × Desc} {descs : List Desc} {k : Nat}
    (hnew : g.inferNew (.binary op rule) [x, y] = .ok descs) (hx : W.Holds x a) (hy : W.Holds y b)
    (hxk : rank x.node < k) (hyk : rank y.node < k)
    (happly : I.apply (.binary op rule) [a.1, b.1] = some [u.1])
    (hinfer : BinaryOp.infer rule [a.2, b.2] = .ok [u.2])
    (hu : u.2.shape.isRanked ∧ I.Describes u.2 u.1) :
    Graph.Follows (I.setting inputs results) (W.add g.nodes.size ⟨.binary op rule, [a, b], [u]⟩)
      (Function.update rank g.nodes.size k) (g.insert (.binary op rule) [x, y] descs) := by
  have hkind := (Op.binary_declares_nothing op rule).2
  have hfire : (I.semantics inputs).described g.nodes.size (.binary op rule) [a, b] = some [u] :=
    Semantics.described_eq_some.2 ⟨happly, hinfer⟩
  have hfits : (I.setting inputs results).fits ⟨.binary op rule, [a, b], [u]⟩ := by
    refine ⟨rfl, fun v hv => ?_⟩
    obtain rfl := List.mem_singleton.1 hv
    exact hu
  have hdescs : descs = [u.2] := by
    obtain ⟨ds, hds, hok⟩ := Edit.inferNew_eq_ok.1 hnew
    simp only [Graph.desc_eq_ok_iff_desc?] at hds
    obtain ⟨d, ds', hd, hds', rfl⟩ := List.forall₂_cons_left_iff.1 hds
    obtain ⟨e, ds'', he, hnil, rfl⟩ := List.forall₂_cons_left_iff.1 hds'
    obtain rfl := List.forall₂_nil_left_iff.1 hnil
    obtain rfl : d = a.2 := h.describes_of_holds hx hd
    obtain rfl : e = b.2 := h.describes_of_holds hy he
    exact Except.ok.inj (hok.symm.trans hinfer)
  refine h.insert_firing ⟨.binary op rule, [a, b], [u]⟩ hkind
    (fun v hv => Edit.exists_targets_of_inferNew hnew hv) hfire (Semantics.sound_of_described hfire)
    hfits (.cons hx (.cons hy .nil)) ?_ ?_
  · rw [hdescs]
    exact .cons rfl .nil
  · simp [hxk, hyk]

/-- A constant and a product with it are added.  If `root` produces what the product is, the product
can be read in the place of `root`. -/
theorem exists_scaled (hI : I.Lawful) {root : NodeId} {x : Output} {t : Tensor} {rule : Broadcast}
    {descs : List Desc}
    (hnew : (g.insert (.constant t) [] [t.desc]).inferNew (.binary .multiply rule)
      [x, ⟨g.nodes.size, 0⟩] = .ok descs)
    (hroot : ∀ fr, W root fr → t.elementType.isStatic ∧ ∃ a u, fr.outs = [u] ∧ W.Holds x a ∧
      rank x.node < rank root ∧
      I.apply (.binary .multiply rule) [a.1, I.ofTensor t] = some [u.1] ∧
      BinaryOp.infer rule [a.2, t.desc] = .ok [u.2]) :
    ∃ W' rank', W.Extends g.nodes.size rank W' rank' ∧
      Graph.Follows (I.setting inputs results) W' rank'
        ((g.insert (.constant t) [] [t.desc]).insert (.binary .multiply rule)
          [x, ⟨g.nodes.size, 0⟩] descs) ∧
      ∀ k, W'.Stands rank' ⟨root, k⟩ ⟨(g.insert (.constant t) [] [t.desc]).nodes.size, k⟩ := by
  by_cases hex : ∃ fr, W root fr
  · obtain ⟨fr, hfr⟩ := hex
    obtain ⟨hstatic, a, u, houts, hxa, hlt, happly, hinfer⟩ := hroot fr hfr
    have h₁ := follows_insert_constant h hI hstatic
    have hold := W.extends_add rank g.nodes.size 0 ⟨.constant t, [], [(I.ofTensor t, t.desc)]⟩
    have hu := (h.fits hfr).2 u (by rw [houts]; exact List.mem_singleton.2 rfl)
    have hxa' : (W.add g.nodes.size ⟨.constant t, [], [(I.ofTensor t, t.desc)]⟩).Holds x a := by
      obtain ⟨f, hf, ha⟩ := hxa
      exact ⟨f, Or.inl hf, ha⟩
    have hconst : (W.add g.nodes.size ⟨.constant t, [], [(I.ofTensor t, t.desc)]⟩).Holds
        ⟨g.nodes.size, 0⟩ (I.ofTensor t, t.desc) := ⟨_, Or.inr ⟨rfl, rfl⟩, rfl⟩
    have h₂ := follows_insert_binary h₁ (k := rank root) hnew hxa' hconst
      (by rwa [(hold x.node (h.lt_size_of_holds hxa)).2])
      (by rw [Function.update_self]; exact Nat.zero_lt_of_lt hlt) happly hinfer hu
    have hsize : g.nodes.size ≤ (g.insert (.constant t) [] [t.desc]).nodes.size := by
      rw [Graph.size_insert]
      exact Nat.le_succ _
    have hext := hold.trans (Trace.extends_add _ _ _ (rank root)
      ⟨.binary .multiply rule, [a, (I.ofTensor t, t.desc)], [u]⟩) hsize
    refine ⟨_, _, hext, h₂, fun k b hb => ?_⟩
    obtain ⟨f, hf, hb⟩ := hb
    obtain ⟨hsame, hrank⟩ := hext root (h.lt_size hfr)
    obtain rfl := h.unique ((hsame f).1 hf) hfr
    rw [houts] at hb
    exact ⟨⟨_, Or.inr ⟨rfl, rfl⟩, hb⟩, by rw [hrank, Function.update_self]⟩
  · have hconst := (Op.constant_declares_nothing t).2
    have hmul := (Op.binary_declares_nothing .multiply rule).2
    have h₁ : Graph.Follows (I.setting inputs results) W rank
        (g.insert (.constant t) [] [t.desc]) := h.insert hconst (by simp)
    refine ⟨W, rank, Trace.Extends.refl W rank _,
      h₁.insert hmul fun v hv => Edit.exists_targets_of_inferNew hnew hv, fun k a ha => ?_⟩
    obtain ⟨fr, hfr, -⟩ := ha
    exact absurd ⟨fr, hfr⟩ hex

end Interpretation

variable {V σ : Type} {T : Setting V} {W : Trace V} {rank : NodeId → Nat}

/-- A rule respects every trace if its action continues each trace that the graph follows. -/
theorem Rule.respects_ofEdit {name : String} {pattern : Pattern} {action : Match → Edit Bool}
    (h : ∀ {W rank g id m}, Graph.Follows T W rank g → pattern.matchNode? g id = some m →
      Ends (Graph.Continues T g.nodes.size W rank) Edit.Anything (action m g)) (n : Nat) :
    (Rule.ofEdit name pattern action : Rule σ).Respects
      (fun s => s.graph.Continues T n W rank) (fun s => Edit.Anything s.graph) := by
  intro s id m h' hm
  rcases h' with ⟨hsize, W', rank', hext, hf⟩
  exact Action.ends_edit ((h hf hm).imp fun _ hg => hg.trans hsize hext)

end OpGraph
