import OpGraph.Optimize.Negation
import OpGraph.Proofs.Op.Kind
import OpGraph.Proofs.Optimize.Interpreted
import OpGraph.Proofs.Pattern.Explained

/-!
# Negations turned into products

Where a negation has a value, the product with minus one has the same value and the same description.
-/

namespace OpGraph.Negation

variable {I : Interpretation} {inputs : NodeId → I.Value} {results : List NodeId}
  {W : Trace (I.Value × Desc)} {rank : NodeId → Nat} {g : Graph}

/-- What the rule does with a match: it leaves a negation of an unsigned type alone, and it lets a product
take over for any other. -/
theorem apply_cases {id : NodeId} {m : Match} (hm : pattern.matchNode? g id = some m)
    {changed : Bool} {g' : Graph} (hok : apply m g = .ok changed g') :
    ∃ x w d, g.view? m.root.node = some w ∧ w.op.kind = .negative ∧ w.inputs = [x] ∧
      g.desc? x = some d ∧ changed = d.elementType.isSigned ∧
      if changed then (do
          let minusOne ← Edit.addConstant (.scalar d.elementType (-1))
          let product ← Edit.addNode .multiply [x, minusOne]
          let n ← Edit.query (·.node m.root.node)
          Edit.setName product n.friendlyName
          Edit.copyMetadata [n.id] [product, minusOne.node]
          Edit.replaceNode n.id product
          return true : Edit Bool) g = .ok true g'
      else g' = g := by
  obtain ⟨x, w, hx, hw, hkind, hin⟩ := Pattern.view?_of_match_unary hm
  rw [apply, hx] at hok
  obtain ⟨d, g₁, hd, hok⟩ := bind_eq_ok.1 hok
  obtain ⟨hdesc, rfl⟩ := Edit.query_eq_ok.1 hd
  refine ⟨x, w, d, hw, hkind, hin, Graph.desc_eq_ok_iff_desc?.1 hdesc, ?_⟩
  split at hok
  next hunsigned =>
    obtain ⟨rfl, rfl⟩ := pure_eq_ok.1 hok
    exact ⟨by simpa using hunsigned, rfl⟩
  next hsigned =>
    obtain rfl : changed = true := answers_bind (fun _ => answers_bind fun _ =>
      answers_bind fun _ => answers_bind fun _ => answers_bind fun _ => answers_bind fun _ =>
        answers_pure true) g changed g' hok
    exact ⟨by simpa using hsigned, hok⟩

/-- What a negation produces is the product of what it reads and minus one. -/
theorem exists_product (hI : I.Lawful) (h : g.Follows (I.setting inputs results) W rank)
    {root : NodeId} {fr : Firing (I.Value × Desc)} (hfr : W root fr) {w : Node.View}
    (hw : g.view? root = some w) (hkind : w.op.kind = .negative) {x : Output}
    (hin : w.inputs = [x]) {d : Desc} (hd : g.desc? x = some d) (hsigned : d.elementType.isSigned) :
    ∃ a u, fr.outs = [u] ∧ W.Holds x a ∧ rank x.node < rank root ∧
      I.apply .multiply [a.1, I.ofTensor (.scalar d.elementType (-1))] = some [u.1] ∧
      BinaryOp.infer .numpy [a.2, (Tensor.scalar d.elementType (-1)).desc] = .ok [u.2] := by
  have hneg : fr.op = .unary .negative :=
    Op.eq_unary_of_kind (h.fits hfr).1 (h.op_eq hfr hw ▸ hkind)
  obtain ⟨hvalue, hdesc⟩ := Semantics.described_eq_some.1 (h.fires hfr)
  have hargs := h.inputs hfr hw
  rw [hin] at hargs
  obtain ⟨a, as, ⟨hxa, hlt⟩, hnil, hargs⟩ := List.forall₂_cons_left_iff.1 hargs
  obtain rfl := List.forall₂_nil_left_iff.1 hnil
  rw [hneg, hargs] at hvalue hdesc
  have hinfer : UnaryOp.infer [a.2] = .ok (fr.outs.map (·.2)) := hdesc
  obtain ⟨b, hb, hbool, houts⟩ := UnaryOp.infer_eq_ok.1 hinfer
  obtain rfl : a.2 = b := List.singleton_injective hb
  obtain ⟨u, hfrouts, hu⟩ := List.map_eq_singleton_iff.1 houts
  obtain rfl : d = a.2 := h.describes_of_holds hxa hd
  obtain ⟨-, hdescribes⟩ := Interpretation.fits_of_holds h hxa
  have hstatic : a.2.elementType.isStatic := ElementType.isStatic_of_isSigned hsigned
  have htype : I.type a.1 = a.2.elementType := Interpretation.type_eq_of_describes hdescribes hstatic
  refine ⟨a, u, hfrouts, hxa, hlt, ?_, ?_⟩
  · rw [hfrouts] at hvalue
    rw [← htype] at hsigned ⊢
    exact hI.negative _ _ hsigned hvalue
  · rw [hu]
    exact BinaryOp.infer_eq_ok.2 ⟨_, _, _, _, rfl, ElementType.merge_self _, hbool,
      PartialShape.broadcast_scalar _, rfl⟩

/-- Once the product is there, the rest of the rule lets it be read in the place of the negation. -/
theorem keeps_takeover {P : Graph → Prop} (hP : Edit.Renamable P) {root product : NodeId}
    (hm : ∀ k, Edit.Movable P ⟨root, k⟩ ⟨product, k⟩) (minusOne : Output) :
    Keeps P Edit.Anything (do
      let n ← Edit.query (·.node root)
      Edit.setName product n.friendlyName
      Edit.copyMetadata [n.id] [product, minusOne.node]
      Edit.replaceNode n.id product
      return true : Edit Bool) := by
  intro g hg
  refine Edit.ends_query_bind fun n hn => ?_
  rw [(hP.wellFormed hg).id_eq (Graph.node_eq_ok.1 hn)]
  refine keeps_bind (Edit.keeps_setName_of_renamable hP _ _) (fun _ => ?_) g hg
  refine keeps_bind (Edit.keeps_copyMetadata_of_renamable hP _ _) fun _ => ?_
  exact keeps_bind (Edit.keeps_replaceNode_of_movable hP hm) fun _ => keeps_pure true

theorem ends_apply (hI : I.Lawful) (h : g.Follows (I.setting inputs results) W rank) {id : NodeId}
    {m : Match} (hm : pattern.matchNode? g id = some m) :
    Ends (Graph.Continues (I.setting inputs results) g.nodes.size W rank) Edit.Anything
      (apply m g) := by
  obtain ⟨x, w, hx, hw, hkind, hin⟩ := Pattern.view?_of_match_unary hm
  rw [apply]
  rw [hx]
  refine Edit.ends_query_bind fun d hd => ?_
  split
  next => exact h.continues
  next hsigned =>
  have hsigned : d.elementType.isSigned := by simpa using hsigned
  refine ends_bind_of_ok (fun _ => trivial) fun v g₁ hv => ?_
  obtain ⟨rfl, rfl⟩ := Edit.addConstant_eq_ok hv
  refine ends_bind_of_ok (fun _ => trivial) fun product g₂ hp => ?_
  obtain ⟨descs, hnew, rfl, rfl⟩ := Edit.addNode_eq_ok.1 hp
  obtain ⟨W', rank', hext, hf, hstands⟩ := Interpretation.exists_scaled h hI hnew fun fr hfr =>
    ⟨ElementType.isStatic_of_isSigned hsigned,
      exists_product hI h hfr hw hkind hin (Graph.desc_eq_ok_iff_desc?.1 hd) hsigned⟩
  have hP : Edit.Hereditary fun g' =>
      g'.Follows (I.setting inputs results) W' rank' ∧ g.nodes.size ≤ g'.nodes.size :=
    Graph.hereditary_follows.and_size_le _
  refine hf.ends_continues hext ?_ (keeps_takeover hP.renamable (fun k => ?_) _)
  · rw [Graph.size_insert, Graph.size_insert]
    omega
  · exact (Graph.movable_follows (hstands k)).and_size_le g.nodes.size

theorem respects_rule {σ : Type} (hI : I.Lawful) (n : Nat) :
    (rule : Rule σ).Respects
      (fun s => s.graph.Continues (I.setting inputs results) n W rank)
      (fun s => Edit.Anything s.graph) :=
  Rule.respects_ofEdit (fun h hm => ends_apply hI h hm) n

end OpGraph.Negation
