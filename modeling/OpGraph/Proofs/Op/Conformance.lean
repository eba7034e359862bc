import OpGraph.Op.Basic
import OpGraph.Proofs.Op.ConcatConformance

/-!
# Operations conform to their inference

`Op.describes_evaluate`: where the inference rule of a built-in operation accepts descriptions of some
tensors, its answer describes the tensors that the operation makes of them.
-/

namespace OpGraph

theorem PartialShape.toShape?_eq_some {p : PartialShape} {s : Shape} :
    p.toShape? = some s ↔ p = ofShape s := by
  constructor
  · intro h
    cases p with
    | unranked => cases h
    | ranked dims =>
      refine congrArg ranked ?_
      have hs := mapM_eq_some.1 h
      clear h
      induction hs with
      | nil => rfl
      | @cons d n dims s hd _ ih =>
        cases d with
        | dynamic => cases hd
        | static m =>
          obtain rfl := Option.some.inj hd
          rw [ih, List.map_cons]
  · intro heq
    subst heq
    exact toShape?_ofShape s

theorem Shape.broadcast_eq_some {a b s : Shape} (h : a.broadcast b = some s) :
    PartialShape.broadcast (.ofShape a) (.ofShape b) = some (.ofShape s) := by
  obtain ⟨p, hp, h⟩ := Option.bind_eq_some_iff.1 h
  obtain ⟨s', hs, h⟩ := Option.bind_eq_some_iff.1 h
  obtain ⟨-, h⟩ := Option.ite_none_right_eq_some.1 h
  obtain rfl := Option.some.inj h
  rw [hp, PartialShape.toShape?_eq_some.1 hs]

theorem Tensor.zipBroadcast_eq_some {a b t : Tensor} {type : ElementType} {f : Float → Float → Float}
    (h : a.zipBroadcast b type f = some t) :
    t.elementType = type ∧ a.shape.broadcast b.shape = some t.shape := by
  obtain ⟨s, hs, rfl⟩ := zipBroadcast_eq_some_iff_broadcast.1 h
  exact ⟨rfl, hs⟩

theorem Tensor.describes_desc (t : Tensor) : t.desc.Describes t :=
  ⟨ElementType.admits_refl _, PartialShape.admits_ofShape.2 rfl⟩

theorem BinaryOp.evaluate_eq_some {op : BinaryOp} {rule : Broadcast} {a b : Tensor}
    {outs : List Tensor} (h : op.evaluate rule [a, b] = some outs) :
    ∃ type t, a.elementType.merge b.elementType = some type ∧ ¬(rule = .none ∧ a.shape ≠ b.shape) ∧
      a.zipBroadcast b type op.apply = some t ∧ outs = [t] := by
  obtain ⟨type, htype, h⟩ := Option.bind_eq_some_iff.1 h
  obtain ⟨hrule, h⟩ := Option.ite_none_left_eq_some.1 h
  obtain ⟨t, ht, h⟩ := Option.bind_eq_some_iff.1 h
  exact ⟨type, t, htype, hrule, ht, (Option.some.inj h).symm⟩

theorem BinaryOp.describes_evaluate {op : BinaryOp} {rule : Broadcast} {ds os : List Desc}
    {ts outs : List Tensor} (h : List.Forall₂ Desc.Describes ds ts)
    (hi : infer rule ds = .ok os) (he : op.evaluate rule ts = some outs) :
    List.Forall₂ Desc.Describes os outs := by
  obtain ⟨a, b, type, shape, rfl, htype, -, hshape, rfl⟩ := infer_eq_ok.1 hi
  obtain ⟨s, u, ha, hb, rfl⟩ : ∃ s u, a.Describes s ∧ b.Describes u ∧ ts = [s, u] := by
    cases h with
    | cons ha h =>
      cases h with
      | cons hb h =>
        cases h
        exact ⟨_, _, ha, hb, rfl⟩
  obtain ⟨type', t, htype', hrule, ht, rfl⟩ := evaluate_eq_some he
  obtain ⟨rfl, hts⟩ := Tensor.zipBroadcast_eq_some ht
  have hts := Shape.broadcast_eq_some hts
  refine .cons ⟨ElementType.admits_merge htype ha.1 hb.1 htype', ?_⟩ .nil
  cases rule with
  | numpy => exact PartialShape.admits_broadcast hshape ha.2 hb.2 hts
  | none =>
    have hsu : s.shape = u.shape := not_not.1 fun hne => hrule ⟨rfl, hne⟩
    have hs : s.shape = t.shape := by
      obtain ⟨c, hc, hl, hk⟩ := PartialShape.broadcast_ofShape_eq_some.1 hts
      obtain rfl := PartialShape.ofShape_injective hc
      refine Shape.fromEnd_ext (by rw [hl, hsu, Nat.max_self]) fun k => ?_
      have := hk k
      rw [hsu, Dim.broadcast_static] at this
      rw [hsu]
      omega
    exact hs ▸ PartialShape.admits_merge hshape ha.2 (hsu ▸ hb.2)

/-- **Evaluation conforms to inference.** -/
theorem Op.describes_evaluate {op : Op} (hop : op.isBuiltIn) {ds os : List Desc}
    {ts outs : List Tensor} (h : List.Forall₂ Desc.Describes ds ts) (hi : op.infer ds = .ok os)
    (he : op.evaluate ts = some outs) : List.Forall₂ Desc.Describes os outs := by
  cases op with
  | parameter type shape => cases he
  | constant t => cases he
  | result => cases he
  | convolution c => cases he
  | maxPool p => cases he
  | extension e => cases hop
  | binary op rule => exact BinaryOp.describes_evaluate h hi he
  | concat axis => exact Concat.describes_evaluate h hi he
  | unary op =>
    obtain ⟨a, rfl, -, rfl⟩ := UnaryOp.infer_eq_ok.1 hi
    cases h with
    | cons ha h =>
      cases h
      obtain rfl := Option.some.inj he
      exact .cons ha .nil
  | convert destination =>
    obtain ⟨hlen, -, rfl⟩ := infer_convert.1 hi
    obtain ⟨d, rfl⟩ := List.length_eq_one_iff.1 hlen
    cases h with
    | cons hd h =>
      cases h
      obtain rfl := Option.some.inj he
      exact .cons ⟨Or.inr rfl, hd.2⟩ .nil
  | shapeOf =>
    obtain ⟨hlen, rfl⟩ := infer_shapeOf.1 hi
    obtain ⟨d, rfl⟩ := List.length_eq_one_iff.1 hlen
    cases h with
    | @cons _ t _ _ hd h =>
      cases h
      obtain ⟨r, hr, rfl⟩ := Option.map_eq_some_iff.1 he
      obtain ⟨htype, hlength⟩ := Desc.mk.inj (desc_of_shapeTensor? hr)
      obtain hlength : r.shape = [t.shape.length] := PartialShape.ofShape_injective hlength
      refine .cons ⟨Or.inr htype.symm, ?_⟩ .nil
      rw [hlength]
      refine .cons ?_ .nil
      have hshape := hd.2
      cases hs : d.shape with
      | unranked => trivial
      | ranked dims =>
        rw [hs] at hshape
        exact List.Forall₂.length_eq hshape

end OpGraph
