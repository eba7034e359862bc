import OpGraph.Optimize.Identity
import OpGraph.Proofs.Op.Kind
import OpGraph.Proofs.Optimize.IdentityShape
import OpGraph.Proofs.Optimize.Interpreted
import OpGraph.Proofs.Pattern.Explained

/-!
# Operations without effect are bypassed

A conversion to the type of its operand, a product with ones and a sum with zeros produce the value that
they read, with the same description.  For products and sums this hangs on the rank of the operand being
known: then the constant does not broadcast it, whatever shape it has.
-/

namespace OpGraph.Identity

variable {I : Interpretation} {inputs : NodeId → I.Value} {results : List NodeId}
  {W : Trace (I.Value × Desc)} {rank : NodeId → Nat} {g : Graph}

/-- A conversion to the type of its operand produces the operand. -/
theorem stands_conversion (hI : I.Lawful) (h : g.Follows (I.setting inputs results) W rank)
    {root : NodeId} {w : Node.View} (hw : g.view? root = some w) {d : Desc}
    (hop : w.op = .convert d.elementType) {x : Output} (hin : w.inputs = [x])
    (hd : g.desc? x = some d) : W.Stands rank ⟨root, 0⟩ x := by
  intro b h'
  rcases h' with ⟨fr, hfr, hb⟩
  obtain ⟨hvalue, hdesc⟩ := Semantics.described_eq_some.1 (h.fires hfr)
  have hargs := h.inputs hfr hw
  rw [hin] at hargs
  obtain ⟨a, as, ⟨hxa, hlt⟩, hnil, hargs⟩ := List.forall₂_cons_left_iff.1 hargs
  obtain rfl := List.forall₂_nil_left_iff.1 hnil
  obtain rfl : d = a.2 := h.describes_of_holds hxa hd
  rw [← h.op_eq hfr hw, hop, hargs] at hvalue hdesc
  obtain ⟨-, hstatic, hdescs⟩ := Op.infer_convert.1 hdesc
  have htype : I.type a.1 = a.2.elementType :=
    Interpretation.type_eq_of_describes (Interpretation.fits_of_holds h hxa).2 hstatic
  have happly : I.apply (.convert (I.type a.1)) [a.1] = some (fr.outs.map (·.1)) := by
    rw [htype]
    exact hvalue
  have houts : fr.outs = [a] := List.zip_of_prod (hI.convert _ _ happly) hdescs
  rw [houts] at hb
  rw [List.mem_singleton.1 (List.mem_of_getElem? hb)]
  exact ⟨hxa, Nat.le_of_lt hlt⟩

theorem ends_bypassConversion (hI : I.Lawful) (h : g.Follows (I.setting inputs results) W rank)
    {id : NodeId} {m : Match} (hm : conversion.matchNode? g id = some m) :
    Ends (Graph.Continues (I.setting inputs results) g.nodes.size W rank) Edit.Anything
      (bypassConversion m g) := by
  obtain ⟨x, w, hx, hw, -, hin⟩ := Pattern.view?_of_match_unary hm
  rw [bypassConversion]
  refine ends_bind_of_ok (fun _ => trivial) fun g₁ g₂ hg => ?_
  obtain ⟨rfl, rfl⟩ := get_eq_ok.1 hg
  rw [hx]
  cases hop : g.op? m.root.node with
  | none => exact h.continues
  | some op =>
  cases op with
  | convert destination =>
    refine Edit.ends_query_bind fun d hd => ?_
    split
    next htype =>
      subst htype
      have hwop := Graph.op_eq_of_view? hw hop
      refine h.ends_bypass fun source hsource => ?_
      rw [Graph.source?_of_view? hw, hin] at hsource
      obtain rfl := Option.some.inj hsource
      exact stands_conversion hI h hw hwop hin (Graph.desc_eq_ok_iff_desc?.1 hd)
    next => exact h.continues
  | _ => exact h.continues

/-- An operand beside a constant that is absorbed is the result, if it has the description of the
result. -/
theorem eq_of_absorbs {op : BinaryOp} {identity : Float} (habsorbs : I.Absorbs op identity)
    {rule : Broadcast} {a u : I.Value × Desc} {c : Tensor} (hranked : a.2.shape.isRanked)
    (hdescribes : I.Describes a.2 a.1) (hstatic : c.elementType.isStatic)
    (hall : c.allEqual identity) (hdesc : u.2 = a.2)
    (h : I.apply (.binary op rule) [a.1, I.ofTensor c] = some [u.1] ∧
        BinaryOp.infer rule [a.2, c.desc] = .ok [u.2] ∨
      I.apply (.binary op rule) [I.ofTensor c, a.1] = some [u.1] ∧
        BinaryOp.infer rule [c.desc, a.2] = .ok [u.2]) : u = a := by
  have hshape : rule.shape? a.2.shape (.ofShape c.shape) = some a.2.shape := by
    rw [hdesc] at h
    rcases h with ⟨-, hinfer⟩ | ⟨-, hinfer⟩
    · exact BinaryOp.shape?_of_infer hinfer
    · rw [Broadcast.shape?_comm]
      exact BinaryOp.shape?_of_infer hinfer
  have hbroadcast := Broadcast.broadcast_admitted hshape hranked hdescribes.2
  obtain ⟨hleft, hright⟩ := habsorbs rule a.1 [u.1] c hstatic hall hbroadcast
  refine Prod.ext (List.singleton_injective ?_) hdesc
  rcases h with ⟨happly, -⟩ | ⟨happly, -⟩
  · exact hleft happly
  · exact hright happly

/-- A constant of the elements that an operation absorbs leaves its other operand as it is. -/
theorem stands_operand (h : g.Follows (I.setting inputs results) W rank) {op : BinaryOp}
    {identity : Float} (habsorbs : I.Absorbs op identity) {root : NodeId} {w : Node.View}
    (hw : g.view? root = some w) (hkind : w.op.kind = op.kind) {index : Nat}
    (hi : g.identityOperand? root identity = some index) {source : Output}
    (hsource : g.source? ⟨root, index⟩ = some source) : W.Stands rank ⟨root, 0⟩ source := by
  intro b h'
  rcases h' with ⟨fr, hfr, hb⟩
  obtain ⟨w', data, other, c, d, hw', hin, hc, hall, hd, hdescs⟩ :=
    Graph.identityOperand?_eq_some hi
  obtain rfl := Option.some.inj (hw.symm.trans hw')
  obtain ⟨rule, hrule⟩ := Op.eq_binary_of_kind (h.fits hfr).1 (h.op_eq hfr hw ▸ hkind)
  have hop : w.op = .binary op rule := (h.op_eq hfr hw).trans hrule
  obtain ⟨a, u, houts, ⟨ha, hlt⟩, hstatic, happly⟩ : ∃ a u, fr.outs = [u] ∧
      (W.Holds data a ∧ rank data.node < rank root) ∧ c.elementType.isStatic ∧
      (I.apply (.binary op rule) [a.1, I.ofTensor c] = some [u.1] ∧
          BinaryOp.infer rule [a.2, c.desc] = .ok [u.2] ∨
        I.apply (.binary op rule) [I.ofTensor c, a.1] = some [u.1] ∧
          BinaryOp.infer rule [c.desc, a.2] = .ok [u.2]) := by
    rcases hin with ⟨-, hin⟩ | ⟨-, hin⟩
    · obtain ⟨a, e, u, houts, ha, ⟨he, -⟩, happly, hinfer⟩ :=
        Interpretation.exists_of_binary h hfr hw hop hin
      obtain ⟨hstatic, rfl⟩ := Interpretation.eq_of_holds_constant h he hc
      exact ⟨a, u, houts, ha, hstatic, Or.inl ⟨happly, hinfer⟩⟩
    · obtain ⟨e, a, u, houts, ⟨he, -⟩, ha, happly, hinfer⟩ :=
        Interpretation.exists_of_binary h hfr hw hop hin
      obtain ⟨hstatic, rfl⟩ := Interpretation.eq_of_holds_constant h he hc
      exact ⟨a, u, houts, ha, hstatic, Or.inr ⟨happly, hinfer⟩⟩
  have hdesc : u.2 = a.2 := by
    have hud := h.descs hfr hw
    rw [hdescs, houts] at hud
    exact (List.forall₂_cons.1 hud).1.symm.trans (h.describes_of_holds ha hd)
  obtain ⟨hranked, hdescribes⟩ := Interpretation.fits_of_holds h ha
  have hua := eq_of_absorbs habsorbs hranked hdescribes hstatic hall hdesc happly
  rw [houts, hua] at hb
  obtain rfl : source = data := by
    rw [Graph.source?_of_view? hw] at hsource
    rcases hin with ⟨rfl, hin⟩ | ⟨rfl, hin⟩ <;> rw [hin] at hsource <;>
      exact (Option.some.inj hsource).symm
  rw [List.mem_singleton.1 (List.mem_of_getElem? hb)]
  exact ⟨ha, Nat.le_of_lt hlt⟩

theorem ends_bypassOperation (h : g.Follows (I.setting inputs results) W rank) {op : BinaryOp}
    {identity : Float} (habsorbs : I.Absorbs op identity) {id : NodeId} {m : Match}
    (hm : (Pattern.ofKind op.kind).matchNode? g id = some m) :
    Ends (Graph.Continues (I.setting inputs results) g.nodes.size W rank) Edit.Anything
      (bypassOperation identity m g) := by
  obtain ⟨w, hw, hkind⟩ := Pattern.view?_of_match_ofKind hm
  rw [bypassOperation]
  refine ends_bind_of_ok (fun _ => trivial) fun g₁ g₂ hg => ?_
  obtain ⟨rfl, rfl⟩ := get_eq_ok.1 hg
  cases hi : g.identityOperand? m.root.node identity with
  | none => exact h.continues
  | some index =>
    exact h.ends_bypass fun source hsource => stands_operand h habsorbs hw hkind hi hsource

theorem respects_rules {σ : Type} (hI : I.Lawful) (n : Nat) {r : Rule σ}
    (hr : r ∈ [convertRule, multiplyRule, addRule]) :
    r.Respects (fun s => s.graph.Continues (I.setting inputs results) n W rank)
      (fun s => Edit.Anything s.graph) := by
  simp only [List.mem_cons, List.not_mem_nil, or_false] at hr
  rcases hr with rfl | rfl | rfl
  · exact Rule.respects_ofEdit (fun h hm => ends_bypassConversion hI h hm) n
  · exact Rule.respects_ofEdit (fun h hm => ends_bypassOperation h hI.multiply_ones hm) n
  · exact Rule.respects_ofEdit (fun h hm => ends_bypassOperation h hI.add_zeros hm) n

end OpGraph.Identity
