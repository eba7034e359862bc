import OpGraph.Proofs.Op.Chain
import OpGraph.Proofs.Op.Combined

/-!
# Types and shapes

What a value is apart from its elements: an element type and a shape, with nothing left open.  Binary
operations combine them as they run (`ExactShape.combine`), which is what inference finds for exact
descriptions (`ExactShape.combine_eq_some`).
-/

namespace OpGraph

/-- An element type and a shape, with nothing left open. -/
structure ExactShape where
  type : ElementType
  shape : Shape
  isStatic : type.isStatic

namespace ExactShape

/-- The type and the shape as a description. -/
def desc (v : ExactShape) : Desc := .exact v.type v.shape

theorem desc_injective {a b : ExactShape} (h : a.desc = b.desc) : a = b := by
  obtain ⟨type, shape, ha⟩ := a
  obtain ⟨type', shape', hb⟩ := b
  obtain ⟨rfl, rfl⟩ := Desc.exact_injective h
  rfl

/-- The type and the shape of a tensor; a type that is not known is taken to be `f32`. -/
def ofTensor (t : Tensor) : ExactShape :=
  if h : t.elementType.isStatic then ⟨t.elementType, t.shape, h⟩ else ⟨.f32, t.shape, rfl⟩

theorem desc_ofTensor {t : Tensor} (h : t.elementType.isStatic) : (ofTensor t).desc = t.desc := by
  rw [ofTensor]
  rw [dif_pos h]
  rfl

/-- What a binary operation makes of two operands. -/
def combine (rule : Broadcast) (a b : ExactShape) : Option ExactShape :=
  if a.type = b.type ∧ a.type ≠ .boolean then
    ((rule.shape? (.ofShape a.shape) (.ofShape b.shape)).bind (·.toShape?)).map
      (⟨a.type, ·, a.isStatic⟩)
  else none

variable {rule : Broadcast} {a b c : ExactShape}

/-- What inference finds for exact descriptions is what is made. -/
theorem combine_eq_some :
    combine rule a b = some c ↔ BinaryOp.infer rule [a.desc, b.desc] = .ok [c.desc] := by
  unfold desc
  rw [BinaryOp.infer_exact_eq_ok]
  constructor
  · intro h
    obtain ⟨⟨htype, hbool⟩, hmap⟩ := Option.ite_none_right_eq_some.1 h
    obtain ⟨s, hbind, rfl⟩ := Option.map_eq_some_iff.1 hmap
    obtain ⟨r, hr, hs⟩ := Option.bind_eq_some_iff.1 hbind
    rw [PartialShape.toShape?_eq_some.1 hs] at hr
    exact ⟨a.type, s, htype ▸ ElementType.merge_self _, hbool, hr, rfl⟩
  · intro h'
    rcases h' with ⟨t, s, ht, hbool, hs, hc⟩
    obtain ⟨rfl, hb⟩ := ElementType.isStatic_of_merge ht a.isStatic b.isStatic
    obtain rfl : (⟨a.type, s, a.isStatic⟩ : ExactShape) = c :=
      desc_injective (List.singleton_injective hc).symm
    refine (if_pos ⟨hb.symm, hbool⟩).trans ?_
    rw [hs, Option.bind_some, PartialShape.toShape?_ofShape, Option.map_some]

/-- What inference accepts can be combined. -/
theorem exists_combine {os : List Desc} (h : BinaryOp.infer rule [a.desc, b.desc] = .ok os) :
    ∃ c, combine rule a b = some c := by
  obtain ⟨t, s, ht, -, -, rfl⟩ := BinaryOp.infer_exact_eq_ok.1 h
  have hstatic := (ElementType.isStatic_of_merge ht a.isStatic b.isStatic).1 ▸ a.isStatic
  exact ⟨⟨t, s, hstatic⟩, combine_eq_some.2 h⟩

theorem combine_comm (rule : Broadcast) (a b : ExactShape) :
    combine rule a b = combine rule b a := by
  refine Option.ext fun c => ?_
  rw [combine_eq_some, combine_eq_some]
  unfold desc
  simp only [BinaryOp.infer_exact_eq_ok, ElementType.merge_comm a.type,
    Broadcast.shape?_comm rule (.ofShape a.shape)]

/-- An operand stays as it is beside one that does not broadcast it. -/
theorem eq_of_combine
    (hb : PartialShape.broadcast (.ofShape b.shape) (.ofShape a.shape) = some (.ofShape a.shape))
    (h : combine rule a b = some c) : c = a := by
  obtain ⟨t, s, ht, -, hs, hc⟩ := BinaryOp.infer_exact_eq_ok.1 (combine_eq_some.1 h)
  obtain ⟨rfl, -⟩ := ElementType.isStatic_of_merge ht a.isStatic b.isStatic
  refine desc_injective ((List.singleton_injective hc).trans (congrArg (Desc.exact _) ?_))
  cases rule with
  | none => exact PartialShape.ofShape_injective (PartialShape.merge_ofShape_eq_some.1 hs).2
  | numpy =>
    rw [Broadcast.shape?_comm] at hs
    exact PartialShape.ofShape_injective (Option.some.inj (hs.symm.trans hb))

/-- The operands have the type of the result, and their shapes stretch to its shape. -/
theorem of_combine (h : combine rule a b = some c) :
    a.type = c.type ∧ b.type = c.type ∧ Shape.Stretch a.shape b.shape c.shape := by
  obtain ⟨t, s, ht, -, hs, hc⟩ := BinaryOp.infer_exact_eq_ok.1 (combine_eq_some.1 h)
  obtain ⟨rfl, hb⟩ := ElementType.isStatic_of_merge ht a.isStatic b.isStatic
  obtain ⟨htype, hshape⟩ := Desc.exact_injective (List.singleton_injective hc)
  rw [htype, hshape, hb]
  exact ⟨rfl, rfl, Broadcast.stretch_of_shape? hs⟩

theorem of_combine_ofTensor {v u : ExactShape} {t : Tensor} (ht : t.elementType.isStatic)
    (h : combine rule v (ofTensor t) = some u) :
    v.type = u.type ∧ t.elementType = u.type ∧ Shape.Stretch v.shape t.shape u.shape := by
  obtain ⟨htype, hshape⟩ := Desc.exact_injective (desc_ofTensor ht)
  obtain ⟨hv, hc, hstretch⟩ := of_combine h
  rw [htype] at hc
  rw [hshape] at hstretch
  exact ⟨hv, hc, hstretch⟩

/-- What is combined with two constants in turn is combined with their combination. -/
theorem combine_combined {v w u : ExactShape} {a b c : Tensor} {t : ElementType}
    {f : Float → Float → Float} (ha : a.elementType.isStatic) (hb : b.elementType.isStatic)
    (ht : a.elementType.merge b.elementType = some t) (hc : a.zipBroadcast b t f = some c)
    (hinner : combine rule v (ofTensor a) = some w) (houter : combine rule w (ofTensor b) = some u) :
    combine rule v (ofTensor c) = some u := by
  obtain ⟨htype, hshape⟩ := Tensor.zipBroadcast_eq_some hc
  rw [combine_eq_some] at hinner houter ⊢
  rw [desc_ofTensor ha] at hinner
  rw [desc_ofTensor hb] at houter
  rw [desc_ofTensor (Tensor.isStatic_of_zipBroadcast ha hb ht hc), Tensor.desc, htype]
  exact BinaryOp.infer_combined hinner houter ht (Shape.broadcast_eq_some hshape)

end ExactShape

end OpGraph
