import OpGraph.Optimize.MultiplyChain
import OpGraph.Proofs.Optimize.Interpreted
import OpGraph.Proofs.Pattern.Explained

/-!
# Chains of products

Where a product of a product with constants has a value, one product with the combined constant has the
same value; the rule checks itself that it has the same description.
-/

namespace OpGraph.MultiplyChain

variable {I : Interpretation} {inputs : NodeId → I.Value} {results : List NodeId}
  {W : Trace (I.Value × Desc)} {rank : NodeId → Nat} {g : Graph}

/-- What a match of the pattern has found: the outer product reads the inner one and a constant. -/
theorem exists_of_match {id : NodeId} {m : Match} (h : pattern.matchNode? g id = some m) :
    ∃ x y c₁ c₂ inner outer, m.get? 0 = some x ∧ m.get? 1 = some c₁ ∧ m.get? 2 = some y ∧
      m.get? 3 = some c₂ ∧ g.view? m.root.node = some outer ∧ outer.inputs = [y, c₂] ∧
      g.view? y.node = some inner ∧ inner.inputs = [x, c₁] := by
  obtain ⟨hroot, hall⟩ := Pattern.explains_of_matchNode? h
  obtain ⟨-, -, outer, houter, -, hin⟩ := hall 4 (by decide) m.root hroot
  obtain ⟨y, l, hy, hin, houts⟩ := List.forall₂_cons_left_iff.1 (hin (by simp))
  obtain ⟨c₂, l', hc₂, hnil, rfl⟩ := List.forall₂_cons_left_iff.1 hin
  obtain rfl := List.forall₂_nil_left_iff.1 hnil
  obtain ⟨-, -, inner, hinner, -, hin'⟩ := hall 2 (by decide) y hy
  obtain ⟨x, l, hx, hin', hins⟩ := List.forall₂_cons_left_iff.1 (hin' (by simp))
  obtain ⟨c₁, l', hc₁, hnil, rfl⟩ := List.forall₂_cons_left_iff.1 hin'
  obtain rfl := List.forall₂_nil_left_iff.1 hnil
  exact ⟨x, y, c₁, c₂, inner, outer, hx, hc₁, hy, hc₂, houter, houts, hinner, hins⟩

/-- What the rule does with a match: it looks for a scale, and if there is one, a product with it is fused
for the two products. -/
theorem apply_cases {id : NodeId} {m : Match} (hm : pattern.matchNode? g id = some m)
    {changed : Bool} {g' : Graph} (hok : apply m g = .ok changed g') :
    ∃ x y c₁ c₂ inner outer r,
      (m.get? 0 = some x ∧ m.get? 1 = some c₁ ∧ m.get? 2 = some y ∧ m.get? 3 = some c₂) ∧
      g.view? m.root.node = some outer ∧ outer.inputs = [y, c₂] ∧
      g.view? y.node = some inner ∧ inner.inputs = [x, c₁] ∧
      scale? g x c₁ c₂ y.node m.root = .ok r ∧
      match r with
      | none => changed = false ∧ g' = g
      | some (t, rule) => changed = true ∧ (do
          let c ← Edit.addConstant t
          let fused ← Edit.addNode (.binary .multiply rule) [x, c]
          Edit.fuse [y.node, m.root.node] m.root.node fused
          return true : Edit Bool) g = .ok true g' := by
  obtain ⟨x, y, c₁, c₂, inner, outer, hx, hc₁, hy, hc₂, houter, hin, hinner, hin'⟩ :=
    exists_of_match hm
  have hnode : m.node? 2 = some y.node := by rw [Match.node?, hy, Option.map_some]
  rw [apply, hx, hc₁, hc₂, hnode] at hok
  obtain ⟨r, g₁, hr, hok⟩ := bind_eq_ok.1 hok
  obtain ⟨hscale, rfl⟩ := Edit.query_eq_ok.1 hr
  refine ⟨x, y, c₁, c₂, inner, outer, r, ⟨hx, hc₁, hy, hc₂⟩, houter, hin, hinner, hin', hscale, ?_⟩
  cases r with
  | none =>
    obtain ⟨rfl, rfl⟩ := pure_eq_ok.1 hok
    exact ⟨rfl, rfl⟩
  | some p =>
    obtain rfl : changed = true := answers_bind (fun _ => answers_bind fun _ =>
      answers_bind fun _ => answers_pure true) g changed g' hok
    exact ⟨rfl, hok⟩

theorem broadcast?_eq_some {id : NodeId} {rule : Broadcast} :
    broadcast? g id = some rule ↔ g.op? id = some (.binary .multiply rule) := by
  rw [broadcast?]
  split <;> simp_all

/-- What the rule has checked before it combines two constants. -/
theorem scale?_eq_some {x c₁ c₂ root : Output} {inner : NodeId} {t : Tensor} {rule : Broadcast}
    (h : scale? g x c₁ c₂ inner root = .ok (some (t, rule))) :
    ∃ a b type data expected, g.constantValue? c₁ = some a ∧ g.constantValue? c₂ = some b ∧
      g.op? inner = some (.binary .multiply rule) ∧
      g.op? root.node = some (.binary .multiply rule) ∧
      a.elementType.merge b.elementType = some type ∧ a.zipBroadcast b type (· * ·) = some t ∧
      g.desc? x = some data ∧ g.desc? root = some expected ∧
      BinaryOp.infer rule [data, t.desc] = .ok [expected] := by
  unfold scale? at h
  split at h
  next a b innerRule outerRule ha hb hinner houter =>
    rcases ite_eq_iff.1 h with ⟨-, h⟩ | ⟨hrule, h⟩
    · cases h
    obtain rfl := not_not.1 hrule
    split at h
    next type htype =>
      split at h
      next scale hscale =>
        cases hx : g.desc x with
        | error e =>
          rw [hx] at h
          cases h
        | ok data =>
        cases hr : g.desc root with
        | error e =>
          rw [hx, hr] at h
          cases h
        | ok expected =>
        rw [hx, hr] at h
        dsimp only [bind, Except.bind] at h
        split at h
        next d hinfer =>
          obtain ⟨rfl, hsome⟩ := Option.ite_none_right_eq_some.1 (Except.ok.inj h)
          cases hsome
          exact ⟨a, b, type, data, d, ha, hb, broadcast?_eq_some.1 hinner,
            broadcast?_eq_some.1 houter, htype, hscale, Graph.desc_eq_ok_iff_desc?.1 hx,
            Graph.desc_eq_ok_iff_desc?.1 hr, hinfer⟩
        next => cases h
      next => cases h
    next => cases h
  next => cases h

/-- What the outer product produces is the product of the data and the combined constant. -/
theorem exists_product (hI : I.Lawful) (hdef : I.CombinesProducts)
    (h : g.Follows (I.setting inputs results) W rank)
    {x y c₁ c₂ root : Output} {inner outer : Node.View} {t : Tensor} {rule : Broadcast}
    (houter : g.view? root.node = some outer) (hin : outer.inputs = [y, c₂])
    (hinner : g.view? y.node = some inner) (hin' : inner.inputs = [x, c₁])
    (hscale : scale? g x c₁ c₂ y.node root = .ok (some (t, rule)))
    {fr : Firing (I.Value × Desc)} (hfr : W root.node fr) :
    t.elementType.isStatic ∧ ∃ a u, fr.outs = [u] ∧ W.Holds x a ∧ rank x.node < rank root.node ∧
      I.apply (.binary .multiply rule) [a.1, I.ofTensor t] = some [u.1] ∧
      BinaryOp.infer rule [a.2, t.desc] = .ok [u.2] := by
  obtain ⟨s₁, s₂, type, data, expected, hs₁, hs₂, hop', hop, htype, hzip, hdata, hexpected,
    hinfer⟩ := scale?_eq_some hscale
  obtain ⟨p, b₂, u, houts, ⟨hyp, hlt⟩, ⟨hc₂, -⟩, happly, -⟩ :=
    Interpretation.exists_of_binary h hfr houter (Graph.op_eq_of_view? houter hop) hin
  obtain ⟨fr', hfr', hp⟩ := hyp
  obtain ⟨a, b₁, p', houts', ⟨hxa, hlt'⟩, ⟨hc₁, -⟩, happly', -⟩ :=
    Interpretation.exists_of_binary h hfr' hinner (Graph.op_eq_of_view? hinner hop') hin'
  rw [houts'] at hp
  obtain rfl := List.mem_singleton.1 (List.mem_of_getElem? hp)
  obtain ⟨hstatic₁, rfl⟩ := Interpretation.eq_of_holds_constant h hc₁ hs₁
  obtain ⟨hstatic₂, rfl⟩ := Interpretation.eq_of_holds_constant h hc₂ hs₂
  obtain ⟨hstatic, hcombined⟩ :=
    hI.multiply_combined hdef hstatic₁ hstatic₂ htype hzip happly' happly
  obtain rfl : data = a.2 := h.describes_of_holds hxa hdata
  have hu : expected = u.2 := by
    rw [Graph.desc?_of_view? houter] at hexpected
    have hdescs := h.descs hfr houter
    rw [houts] at hdescs
    obtain ⟨v, hv, hvd⟩ := forall₂_getElem? hdescs hexpected
    rw [List.mem_singleton.1 (List.mem_of_getElem? hv)] at hvd
    exact hvd
  exact ⟨hstatic, a, u, houts, hxa, Nat.lt_trans hlt' hlt, hcombined, hu ▸ hinfer⟩

theorem ends_apply (hI : I.Lawful) (hdef : I.CombinesProducts)
    (h : g.Follows (I.setting inputs results) W rank) {id : NodeId} {m : Match}
    (hm : pattern.matchNode? g id = some m) :
    Ends (Graph.Continues (I.setting inputs results) g.nodes.size W rank) Edit.Anything
      (apply m g) := by
  obtain ⟨x, y, c₁, c₂, inner, outer, hx, hc₁, hy, hc₂, houter, hin, hinner, hin'⟩ :=
    exists_of_match hm
  have hnode : m.node? 2 = some y.node := by rw [Match.node?, hy, Option.map_some]
  rw [apply]
  rw [hx, hc₁, hc₂, hnode]
  refine Edit.ends_query_bind fun r hr => ?_
  cases r with
  | none => exact h.continues
  | some p =>
    obtain ⟨t, rule⟩ := p
    refine ends_bind_of_ok (fun _ => trivial) fun v g₁ hv => ?_
    obtain ⟨rfl, rfl⟩ := Edit.addConstant_eq_ok hv
    refine ends_bind_of_ok (fun _ => trivial) fun fused g₂ hf => ?_
    obtain ⟨descs, hnew, rfl, rfl⟩ := Edit.addNode_eq_ok.1 hf
    obtain ⟨W', rank', hext, hf, hstands⟩ := Interpretation.exists_scaled h hI hnew fun fr hfr =>
      exists_product hI hdef h houter hin hinner hin' hr hfr
    have hP : Edit.Hereditary fun g' =>
        g'.Follows (I.setting inputs results) W' rank' ∧ g.nodes.size ≤ g'.nodes.size :=
      Graph.hereditary_follows.and_size_le _
    refine hf.ends_continues hext ?_ ?_
    · rw [Graph.size_insert, Graph.size_insert]
      omega
    · refine keeps_bind (Edit.keeps_fuse_of_movable hP.renamable fun k => ?_) fun _ => keeps_pure true
      exact (Graph.movable_follows (hstands k)).and_size_le g.nodes.size

theorem respects_rule {σ : Type} (hI : I.Lawful) (hdef : I.CombinesProducts) (n : Nat) :
    (rule : Rule σ).Respects
      (fun s => s.graph.Continues (I.setting inputs results) n W rank)
      (fun s => Edit.Anything s.graph) :=
  Rule.respects_ofEdit (fun h hm => ends_apply hI hdef h hm) n

end OpGraph.MultiplyChain
