import OpGraph.Proofs.Op.Chain
import OpGraph.Proofs.Op.ConcatEvaluation

/-!
# Evaluation and inference agree

The operations that can be evaluated have an inference rule and an evaluation, which look at types and
shapes separately.

* `Op.describes_evaluate` of the conformance of operations: a result conforms to what is inferred from
  any descriptions of the operands.
* `Op.agrees_evaluate`: from the exact descriptions of the operands the exact description of the result
  is inferred, and there is a result unless it is too large to be addressed.

`Op.evaluation_as_inferred` puts the two together.
-/

namespace OpGraph

/-- The operations that have a value on tensors of their own. -/
def Op.isEvaluable : Op → Bool
  | binary .. | unary _ | concat _ | convert _ | shapeOf => true
  | _ => false

theorem Op.isBuiltIn_of_isEvaluable {op : Op} (h : op.isEvaluable) : op.isBuiltIn := by
  cases op with
  | extension e => cases h
  | _ => rfl

theorem Shape.broadcast_eq_ite {a b s : Shape}
    (h : PartialShape.broadcast (.ofShape a) (.ofShape b) = some (.ofShape s)) :
    a.broadcast b = if s.addressable then some s else none := by
  simp only [broadcast, h, Option.bind_eq_bind, Option.bind_some, PartialShape.toShape?_ofShape]

/-- Shapes that broadcast are combined unless the result is too large. -/
theorem Tensor.agrees_zipBroadcast {a b : Tensor} {type : ElementType} {f : Float → Float → Float}
    {s : Shape}
    (hs : PartialShape.broadcast (.ofShape a.shape) (.ofShape b.shape) = some (.ofShape s)) :
    Desc.Agrees ⟨type, .ofShape s⟩ ((a.zipBroadcast b type f).bind fun c => some [c]) := by
  refine ⟨s, rfl, ?_⟩
  have hcombined := Shape.broadcast_eq_ite hs
  cases hc : a.zipBroadcast b type f with
  | some c =>
    obtain ⟨htype, hshape⟩ := zipBroadcast_eq_some hc
    rw [hcombined] at hshape
    obtain ⟨-, hshape⟩ := Option.ite_none_right_eq_some.1 hshape
    refine Or.inl ⟨c, rfl, ?_⟩
    rw [desc, partialShape, htype, ← Option.some.inj hshape]
  | none =>
    refine Or.inr ⟨rfl, Bool.eq_false_iff.2 fun hsmall => ?_⟩
    rw [if_pos hsmall] at hcombined
    rw [zipBroadcast_eq_some_iff_broadcast.2 ⟨s, hcombined, rfl⟩] at hc
    cases hc

theorem BinaryOp.agrees_evaluate {op : BinaryOp} {rule : Broadcast} {ts : List Tensor}
    {os : List Desc} (hi : infer rule (ts.map Tensor.desc) = .ok os) :
    ∃ d, os = [d] ∧ d.Agrees (op.evaluate rule ts) := by
  match ts, hi with
  | [], hi => cases hi
  | [t], hi => cases hi
  | t :: u :: v :: ts, hi => cases hi
  | [t, u], hi =>
    obtain ⟨type, s, htype, -, hs, rfl⟩ := infer_exact_eq_ok.1 hi
    obtain ⟨hrule, hs⟩ : ¬(rule = .none ∧ t.shape ≠ u.shape) ∧
        PartialShape.broadcast (.ofShape t.shape) (.ofShape u.shape) = some (.ofShape s) := by
      cases rule with
      | numpy => exact ⟨fun h => (nomatch h.1), hs⟩
      | none =>
        -- equal shapes broadcast to themselves
        obtain ⟨htu, he⟩ := PartialShape.merge_ofShape_eq_some.1 hs
        rw [he, htu, PartialShape.broadcast_ofShape_self]
        exact ⟨fun h => h.2 rfl, rfl⟩
    refine ⟨_, rfl, ?_⟩
    simp only [evaluate, htype, Option.bind_eq_bind, Option.bind_some, if_neg hrule]
    exact Tensor.agrees_zipBroadcast hs

/-- What is inferred from exact descriptions is exact. -/
theorem Op.agrees_evaluate {op : Op} (hop : op.isEvaluable) {ts : List Tensor} {os : List Desc}
    (hi : op.infer (ts.map Tensor.desc) = .ok os) :
    ∃ d, os = [d] ∧ d.Agrees (op.evaluate ts) := by
  cases op with
  | parameter type shape => cases hop
  | constant t => cases hop
  | result => cases hop
  | convolution c => cases hop
  | maxPool p => cases hop
  | extension e => cases hop
  | binary op rule => exact BinaryOp.agrees_evaluate hi
  | concat axis => exact Concat.agrees_evaluate hi
  | unary op =>
    obtain ⟨a, ha, -, rfl⟩ := UnaryOp.infer_eq_ok.1 hi
    obtain ⟨t, rfl, rfl⟩ := List.map_eq_singleton_iff.1 ha
    exact ⟨_, rfl, Tensor.agrees_desc (t.map t.elementType op.apply)⟩
  | convert destination =>
    obtain ⟨hlen, -, rfl⟩ := infer_convert.1 hi
    obtain ⟨t, rfl⟩ := List.length_eq_one_iff.1 (List.length_map Tensor.desc ▸ hlen)
    exact ⟨_, rfl, Tensor.agrees_desc (t.map destination id)⟩
  | shapeOf =>
    obtain ⟨hlen, rfl⟩ := infer_shapeOf.1 hi
    obtain ⟨t, rfl⟩ := List.length_eq_one_iff.1 (List.length_map Tensor.desc ▸ hlen)
    refine ⟨_, rfl, ?_⟩
    show Desc.Agrees ⟨.i64, .ranked [.static (t.shape.map Dim.static).length]⟩
      ((shapeTensor? t.shape).map ([·]))
    rw [List.length_map]
    have hsome := isSome_shapeTensor? t.shape
    refine ⟨[t.shape.length], rfl, ?_⟩
    cases hr : shapeTensor? t.shape with
    | some r => exact Or.inl ⟨r, rfl, desc_of_shapeTensor? hr⟩
    | none => exact Or.inr ⟨rfl, by rw [← hsome, hr]; rfl⟩

/-- **Evaluation and inference agree.**  A result conforms to what is inferred from any descriptions of
the operands and has as many elements as its shape says.  From the exact descriptions of the operands
the exact descriptions of the results are inferred, and there are results as long as the announced
shapes are addressable. -/
theorem Op.evaluation_as_inferred {op : Op} (hop : op.isEvaluable) (ts : List Tensor) :
    (∀ ds os rs, List.Forall₂ Desc.Describes ds ts → op.infer ds = .ok os →
      op.evaluate ts = some rs →
        rs.length = os.length ∧ List.Forall₂ Desc.Describes os rs ∧
          ∀ r ∈ rs, r.values.size = r.shape.numel) ∧
    ∀ os, op.infer (ts.map Tensor.desc) = .ok os →
      (∀ d ∈ os, ∀ s, d.shape.toShape? = some s → s.addressable) →
        ∃ rs, op.evaluate ts = some rs ∧ rs.map Tensor.desc = os := by
  constructor
  · intro ds os rs hds hi he
    have hrs := describes_evaluate (isBuiltIn_of_isEvaluable hop) hds hi he
    exact ⟨hrs.length_eq.symm, hrs, fun r _ => r.size_values⟩
  · intro os hi hsize
    obtain ⟨d, rfl, s, hs, ⟨t, ht, hd⟩ | ⟨-, hlarge⟩⟩ := agrees_evaluate hop hi
    · exact ⟨[t], ht, congrArg ([·]) hd⟩
    · have hsmall := hsize d List.mem_cons_self s (by rw [hs, PartialShape.toShape?_ofShape])
      rw [hlarge] at hsmall
      cases hsmall

/-- Counted from the back, the last axis of two matrices that agree on the other one. -/
theorem Op.evaluation_as_inferred_concatMatrices :
    ∃ rs, (concat (-1)).evaluate [.filled .f32 [2, 3] 1, .filled .f32 [2, 1] 0] = some rs ∧
      rs.map Tensor.desc = [⟨.f32, .ofShape [2, 4]⟩] := by
  refine (Op.evaluation_as_inferred rfl _).2 _ rfl fun d hd s hs => ?_
  obtain rfl := List.mem_singleton.1 hd
  rw [PartialShape.toShape?_ofShape, Option.some.injEq] at hs
  subst hs
  decide

end OpGraph
