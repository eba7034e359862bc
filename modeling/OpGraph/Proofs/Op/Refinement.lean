import OpGraph.Proofs.Op.ConcatRefinement
import OpGraph.Proofs.Op.WindowRefinement

/-!
# Inference does not guess

`Op.infer_monotone`: where the inference rule of a built-in operation accepts descriptions of its inputs,
it also accepts descriptions that know less, and what it then finds knows less about the outputs.  So
nothing that it finds from unknown types, ranks or lengths can turn out wrong, and no inputs are
refused for what is not known about them.
-/

namespace OpGraph

theorem BinaryOp.infer_refines {rule : Broadcast} {ds' ds os' : List Desc}
    (h : List.Forall₂ Desc.Refines ds' ds) (hi : infer rule ds' = .ok os') :
    ∃ os, infer rule ds = .ok os ∧ List.Forall₂ Desc.Refines os' os := by
  obtain ⟨a', b', type', shape', rfl, htype', hbool', hshape', rfl⟩ := infer_eq_ok.1 hi
  cases h with
  | @cons _ a _ _ ha h =>
  cases h with
  | @cons _ b _ _ hb h =>
  cases h
  obtain ⟨type, htype, htt⟩ := ElementType.lenient_merge ha.1 hb.1 htype'
  obtain ⟨shape, hshape, hss⟩ := Broadcast.lenient_shape? rule ha.2 hb.2 hshape'
  have hbool : type ≠ .boolean := by
    rintro rfl
    exact hbool' htt.eq_boolean
  exact ⟨[⟨type, shape⟩], infer_eq_ok.2 ⟨a, b, type, shape, rfl, htype, hbool, hshape, rfl⟩,
    .cons ⟨htt, hss⟩ .nil⟩

theorem UnaryOp.infer_refines {ds' ds os' : List Desc} (h : List.Forall₂ Desc.Refines ds' ds)
    (hi : infer ds' = .ok os') :
    ∃ os, infer ds = .ok os ∧ List.Forall₂ Desc.Refines os' os := by
  obtain ⟨a', rfl, hbool', rfl⟩ := infer_eq_ok.1 hi
  cases h with
  | @cons _ a _ _ ha h =>
  cases h
  have hbool : a.elementType ≠ .boolean := by
    intro heq
    exact hbool' (ElementType.Refines.eq_boolean (heq ▸ ha.1))
  exact ⟨[a], infer_eq_ok.2 ⟨a, rfl, hbool, rfl⟩, .cons ha .nil⟩

/-- **Inference does not guess.** -/
theorem Op.infer_monotone {op : Op} (hop : op.isBuiltIn) {ds' ds os' : List Desc}
    (h : List.Forall₂ Desc.Refines ds' ds) (hi : op.infer ds' = .ok os') :
    ∃ os, op.infer ds = .ok os ∧ List.Forall₂ Desc.Refines os' os := by
  have hsame : ∀ os : List Desc, List.Forall₂ Desc.Refines os os := fun os =>
    List.forall₂_same.2 fun d _ => ⟨ElementType.Refines.refl _, PartialShape.Refines.refl _⟩
  cases op with
  | extension e => cases hop
  | binary op rule => exact BinaryOp.infer_refines h hi
  | unary op => exact UnaryOp.infer_refines h hi
  | concat axis => exact Concat.infer_refines h hi
  | convolution c => exact Convolution.infer_refines h hi
  | maxPool p => exact MaxPool.infer_refines h hi
  | parameter type shape =>
    -- without inputs there is nothing to know
    cases h with
    | nil => exact ⟨os', hi, hsame os'⟩
    | cons _ _ => cases hi
  | constant value =>
    cases h with
    | nil => exact ⟨os', hi, hsame os'⟩
    | cons _ _ => cases hi
  | result =>
    obtain ⟨hlen, rfl⟩ := infer_result.1 hi
    exact ⟨ds, infer_result.2 ⟨h.length_eq ▸ hlen, rfl⟩, h⟩
  | convert destination =>
    obtain ⟨hlen, hstatic, rfl⟩ := infer_convert.1 hi
    refine ⟨_, infer_convert.2 ⟨h.length_eq ▸ hlen, hstatic, rfl⟩, ?_⟩
    refine List.forall₂_map_left_iff.2 (List.forall₂_map_right_iff.2 (h.imp fun d' d hd => ?_))
    exact ⟨ElementType.Refines.refl _, hd.2⟩
  | shapeOf =>
    obtain ⟨hlen, rfl⟩ := infer_shapeOf.1 hi
    refine ⟨_, infer_shapeOf.2 ⟨h.length_eq ▸ hlen, rfl⟩, ?_⟩
    refine List.forall₂_map_left_iff.2 (List.forall₂_map_right_iff.2 (h.imp fun d' d hd => ?_))
    refine ⟨ElementType.Refines.refl _, .cons ?_ .nil⟩
    -- the rank of the input is the length of the output
    cases hr : d.shape.rank? with
    | none => exact Dim.refines_dynamic _
    | some r =>
      rw [PartialShape.Refines.rank?_eq hd.2 hr]
      exact Dim.Refines.refl _

/-- Filters of known rank are enough for a convolution, but the lengths of the data are lost. -/
theorem Op.infer_monotone_unrankedData :
    ∃ os, (convolution (.unit 1)).infer
        [⟨.dynamic, .unranked⟩, ⟨.f32, .ranked [.static 4, .dynamic, .static 2]⟩] = .ok os ∧
      List.Forall₂ Desc.Refines [⟨.f32, .ranked [.static 1, .static 4, .static 7]⟩] os := by
  have hdata : Desc.Refines ⟨.f32, .ofShape [1, 3, 8]⟩ ⟨.dynamic, .unranked⟩ :=
    ⟨Or.inl rfl, trivial⟩
  have hfilters : Desc.Refines ⟨.f32, .ofShape [4, 3, 2]⟩
      ⟨.f32, .ranked [.static 4, .dynamic, .static 2]⟩ :=
    ⟨Or.inr rfl, .cons (Or.inr rfl) (.cons (Or.inl rfl) (.cons (Or.inr rfl) .nil))⟩
  exact Op.infer_monotone (by decide) (.cons hdata (.cons hfilters .nil)) rfl

end OpGraph
