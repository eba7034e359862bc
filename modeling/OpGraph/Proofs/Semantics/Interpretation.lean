import OpGraph.Proofs.Op.Chain
import OpGraph.Proofs.Semantics.Described

/-!
# Interpretations

An interpretation says what the operations do on values of any sort, as long as a value has an element
type and a shape.  It is lawful when it conforms to inference and satisfies the equations that the
optimizations rest on: a negation is a product with minus one, products with constants can be combined,
and conversions to the same type, products with ones and sums with zeros do nothing.

An operation may be undefined on some values, and the equations are about values on which both sides
are defined.  A negation is the exception: the product that it is equal to is defined where it is.  Whether
there is one product for two is a question of its own (`Interpretation.CombinesProducts`).
-/

namespace OpGraph

/-- Values with types and shapes, and what the operations do with them where they are defined. -/
structure Interpretation where
  Value : Type
  type : Value → ElementType
  shape : Value → Shape
  ofTensor : Tensor → Value
  apply : Op → List Value → Option (List Value)

namespace Interpretation

variable (I : Interpretation)

/-- All there is to say about the type and the shape of a value. -/
def desc (v : I.Value) : Desc := .exact (I.type v) (I.shape v)

/-- The description says nothing wrong about the value. -/
def Describes (d : Desc) (v : I.Value) : Prop := d.Admits (I.type v) (I.shape v)

/-- A constant of elements `e` beside a value changes nothing, unless it broadcasts the value. -/
def Absorbs (op : BinaryOp) (e : Float) : Prop :=
  ∀ rule v outs (c : Tensor), c.elementType.isStatic → c.allEqual e →
    PartialShape.broadcast (.ofShape c.shape) (.ofShape (I.shape v)) = some (.ofShape (I.shape v)) →
    (I.apply (.binary op rule) [v, I.ofTensor c] = some outs → outs = [v]) ∧
    (I.apply (.binary op rule) [I.ofTensor c, v] = some outs → outs = [v])

/-- Where a value can be multiplied by two constants in turn, it can be multiplied by their product.
A chain of three constants is combined in two steps, so that the equation alone does not tell what the last
product is if the one between is undefined. -/
def CombinesProducts : Prop :=
  ∀ rule v w (a b c : Tensor) type, a.elementType.isStatic → b.elementType.isStatic →
    a.elementType.merge b.elementType = some type → a.zipBroadcast b type (· * ·) = some c →
    I.apply (.binary .multiply rule) [v, I.ofTensor a] = some [w] →
    (I.apply (.binary .multiply rule) [w, I.ofTensor b]).isSome →
    (I.apply (.binary .multiply rule) [v, I.ofTensor c]).isSome

variable {I} in
/-- Where all values can be multiplied, there is nothing to ask for. -/
theorem combinesProducts_of_total
    (h : ∀ rule a b, (I.apply (.binary .multiply rule) [a, b]).isSome) : I.CombinesProducts :=
  fun rule v _ _ _ c _ _ _ _ _ _ _ => h rule v (I.ofTensor c)

/-- The interpretation conforms to inference and satisfies the equations.  Tensors of unknown type are
no values. -/
structure Lawful : Prop where
  type_isStatic : ∀ v, (I.type v).isStatic
  desc_ofTensor : ∀ t : Tensor, t.elementType.isStatic → I.desc (I.ofTensor t) = t.desc
  conforms : ∀ op ds os vs outs, op.isBuiltIn → List.Forall₂ I.Describes ds vs →
    op.infer ds = .ok os → I.apply op vs = some outs → List.Forall₂ I.Describes os outs
  negative : ∀ v outs, (I.type v).isSigned → I.apply (.unary .negative) [v] = some outs →
    I.apply .multiply [v, I.ofTensor (.scalar (I.type v) (-1))] = some outs
  multiply_multiply : ∀ rule v w outs outs' (a b c : Tensor) type,
    a.elementType.isStatic → b.elementType.isStatic →
    a.elementType.merge b.elementType = some type → a.zipBroadcast b type (· * ·) = some c →
    I.apply (.binary .multiply rule) [v, I.ofTensor a] = some [w] →
    I.apply (.binary .multiply rule) [w, I.ofTensor b] = some outs →
    I.apply (.binary .multiply rule) [v, I.ofTensor c] = some outs' → outs = outs'
  convert : ∀ v outs, I.apply (.convert (I.type v)) [v] = some outs → outs = [v]
  multiply_ones : I.Absorbs .multiply 1
  add_zeros : I.Absorbs .add 0

/-- What the nodes of a graph do; `inputs` are the values of the parameters. -/
def semantics (inputs : NodeId → I.Value) : Semantics I.Value := fun id op vs =>
  match op with
  | .parameter .. => if vs.isEmpty then some [inputs id] else none
  | .constant t => if vs.isEmpty ∧ t.elementType.isStatic then some [I.ofTensor t] else none
  | .result => if vs.length = 1 then some vs else none
  | op => I.apply op vs

variable {I} {inputs : NodeId → I.Value}

theorem describes_of_desc_eq {d : Desc} {v : I.Value} (h : I.desc v = d) : I.Describes d v := by
  subst h
  exact ⟨ElementType.admits_refl _, PartialShape.admits_ofShape.2 rfl⟩

/-- The type of a value is the one that its description names, if it names one. -/
theorem type_eq_of_describes {d : Desc} {v : I.Value} (h : I.Describes d v)
    (hd : d.elementType.isStatic) : I.type v = d.elementType := by
  obtain ⟨hdyn | htype, -⟩ := h
  · rw [hdyn] at hd
    cases hd
  · exact htype.symm

/-- A description without anything left open is all there is to say. -/
theorem desc_eq_of_describes {t : ElementType} {s : Shape} {v : I.Value}
    (h : I.Describes (.exact t s) v) (ht : t.isStatic) : I.desc v = .exact t s := by
  have htype : I.type v = t := type_eq_of_describes h ht
  have hshape : s = I.shape v := PartialShape.admits_ofShape.1 h.2
  rw [desc, htype, hshape]

namespace Lawful

variable (hI : I.Lawful)

include hI

/-- What the nodes do conforms to inference. -/
theorem sound {id : NodeId} {fr : Firing I.Value} (hbuilt : fr.op.isBuiltIn)
    (hin : ∀ type shape, fr.op = .parameter type shape → I.Describes ⟨type, shape⟩ (inputs id))
    (hfire : I.semantics inputs id fr.op fr.args = some fr.outs) : fr.Sound I.Describes := by
  obtain ⟨op, args, outs⟩ := fr
  intro ds os hds hinfer
  dsimp only at *
  have hother : I.apply op args = some outs → List.Forall₂ I.Describes os outs :=
    hI.conforms op ds os args outs hbuilt hds hinfer
  cases op with
  | parameter type shape =>
    obtain ⟨hempty, hout⟩ := Option.ite_none_right_eq_some.1 hfire
    obtain rfl := Option.some.inj hout
    exact Firing.sound_of_isEmpty hempty rfl (hin type shape rfl) ds os hds hinfer
  | constant t =>
    obtain ⟨⟨hempty, hstatic⟩, hout⟩ := Option.ite_none_right_eq_some.1 hfire
    obtain rfl := Option.some.inj hout
    exact Firing.sound_of_isEmpty hempty rfl (describes_of_desc_eq (hI.desc_ofTensor t hstatic))
      ds os hds hinfer
  | result =>
    obtain ⟨-, hout⟩ := Option.ite_none_right_eq_some.1 hfire
    obtain rfl := Option.some.inj hout
    exact Firing.sound_result args ds os hds hinfer
  | extension e => cases hbuilt
  | binary op rule => exact hother hfire
  | unary op => exact hother hfire
  | concat axis => exact hother hfire
  | convert destination => exact hother hfire
  | shapeOf => exact hother hfire
  | convolution c => exact hother hfire
  | maxPool p => exact hother hfire

/-- If inference accepts the operands of a product, it finds the exact description of the product. -/
theorem infer_of_product {rule : Broadcast} {a b c : I.Value} {os : List Desc}
    (h : BinaryOp.infer rule [I.desc a, I.desc b] = .ok os)
    (habc : I.apply (.binary .multiply rule) [a, b] = some [c]) : os = [I.desc c] := by
  have hexact : List.Forall₂ I.Describes [I.desc a, I.desc b] [a, b] :=
    .cons (describes_of_desc_eq rfl) (.cons (describes_of_desc_eq rfl) .nil)
  have hconf := hI.conforms (.binary .multiply rule) _ _ _ _ rfl hexact h habc
  obtain ⟨t, s, ht, -, -, rfl⟩ := BinaryOp.infer_exact_eq_ok.1 h
  obtain ⟨hc, -⟩ := List.forall₂_cons.1 hconf
  have hstatic : t.isStatic := by
    rw [(ElementType.isStatic_of_merge ht (hI.type_isStatic a) (hI.type_isStatic b)).1]
    exact hI.type_isStatic a
  rw [desc_eq_of_describes hc hstatic]

/-- Where the products are those that inference accepts, there are the combined ones: what is accepted in
two steps is accepted in one. -/
theorem combinesProducts_of_infer
    (h : ∀ rule a b, (I.apply (.binary .multiply rule) [a, b]).isSome ↔
      ∃ os, BinaryOp.infer rule [I.desc a, I.desc b] = .ok os) : I.CombinesProducts := by
  intro rule v w a b c t ha hb ht hc hinner houter
  obtain ⟨os, hw⟩ := (h rule v _).1 (by rw [hinner]; rfl)
  obtain ⟨us, hu⟩ := (h rule w _).1 houter
  obtain rfl := hI.infer_of_product hw hinner
  obtain ⟨htype, hshape⟩ := Tensor.zipBroadcast_eq_some hc
  rw [hI.desc_ofTensor a ha] at hw
  rw [hI.desc_ofTensor b hb] at hu
  refine (h rule v _).2 ⟨us, ?_⟩
  rw [hI.desc_ofTensor c (Tensor.isStatic_of_zipBroadcast ha hb ht hc), Tensor.desc, htype]
  exact BinaryOp.infer_combined hw hu ht (Shape.broadcast_eq_some hshape)

/-- **Two products with constants are one**, where all of them are defined. -/
theorem multiply_combined (hdef : I.CombinesProducts) {rule : Broadcast} {v w u : I.Value}
    {a b c : Tensor} {t : ElementType} (ha : a.elementType.isStatic) (hb : b.elementType.isStatic)
    (ht : a.elementType.merge b.elementType = some t) (hc : a.zipBroadcast b t (· * ·) = some c)
    (hinner : I.apply (.binary .multiply rule) [v, I.ofTensor a] = some [w])
    (houter : I.apply (.binary .multiply rule) [w, I.ofTensor b] = some [u]) :
    c.elementType.isStatic ∧ I.apply (.binary .multiply rule) [v, I.ofTensor c] = some [u] := by
  have hdefined := hdef rule v w a b c t ha hb ht hc hinner (by rw [houter]; rfl)
  obtain ⟨outs, houts⟩ := Option.isSome_iff_exists.1 hdefined
  refine ⟨Tensor.isStatic_of_zipBroadcast ha hb ht hc, houts.trans (congrArg some ?_)⟩
  exact (hI.multiply_multiply rule v w _ _ a b c t ha hb ht hc hinner houter houts).symm

end Lawful

end Interpretation

end OpGraph
