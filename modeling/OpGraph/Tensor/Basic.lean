import OpGraph.Desc
import OpGraph.ElementType.Coerce
import OpGraph.Error
import OpGraph.Shape.Index

/-!
# Tensors

A tensor is the value of a constant: an element type, a static shape and one number for each element
in row-major order.  The numbers are ones that the element type holds, and the shape is addressable;
every way to make a tensor coerces the numbers and asks for such a shape.
-/

namespace OpGraph

/-- A host tensor, its elements in row-major order. -/
structure Tensor where
  elementType : ElementType
  shape : Shape
  values : Array Float
  size_values : values.size = shape.numel
  addressable : shape.addressable
  holds : ∀ x ∈ values, elementType.Holds x

namespace Tensor

/-- The tensor whose element at each index is given by a function. -/
def ofIndex (t : ElementType) (s : Shape) (f : Index → Float) (hs : s.addressable) : Tensor where
  elementType := t
  shape := s
  values := Array.ofFn fun k : Fin s.numel => t.coerce (f (s.unravel k))
  size_values := by simp
  addressable := hs
  holds := by simp

/-- The tensor of the given shape with one number everywhere.  There is none for a shape that is not
addressable, and one without elements is given for it. -/
def filled (t : ElementType) (s : Shape) (x : Float) : Tensor :=
  if hs : s.addressable then
    { elementType := t
      shape := s
      values := Array.replicate s.numel (t.coerce x)
      size_values := by simp
      addressable := hs
      holds := by simp +contextual }
  else ofIndex t [0] (fun _ => x) rfl

/-- The tensor without axes. -/
def scalar (t : ElementType) (x : Float) : Tensor := filled t [] x

/-- The tensor with the given numbers in row-major order. -/
def ofList (t : ElementType) (s : Shape) (xs : List Float) (hxs : xs.length = s.numel)
    (hs : s.addressable) : Tensor where
  elementType := t
  shape := s
  values := (xs.map t.coerce).toArray
  size_values := by simpa using hxs
  addressable := hs
  holds := by simp

/-- The tensor with one axis that holds the given numbers, unless there are too many of them. -/
def vector? (t : ElementType) (xs : List Float) : Option Tensor :=
  if hs : Shape.addressable [xs.length] then some (ofList t [xs.length] xs (by simp) hs) else none

/-- The tensor with the given numbers in row-major order.  The count has to fit the shape, and the
shape has to be addressable even if it is empty. -/
def ofValues (t : ElementType) (s : Shape) (xs : List Float) : Except GraphError Tensor :=
  if hxs : xs.length = s.numel then
    if hs : s.addressable then
      .ok (ofList t s xs hxs hs)
    else
      .error (.internal "ShapeError/Overflow: arithmetic overflow")
  else
    .error (.shapeMismatch "tensor"
      s!"shape {s.text} needs {s.numel} values, got {xs.length}")

/-- The shape of the tensor, every length known. -/
def partialShape (t : Tensor) : PartialShape := .ofShape t.shape

/-- The description of the tensor as a graph value. -/
def desc (t : Tensor) : Desc := ⟨t.elementType, t.partialShape⟩

/-- The number of elements. -/
def numel (t : Tensor) : Nat := t.values.size

/-- A tensor is empty when it has no elements. -/
def isEmpty (t : Tensor) : Bool := t.values.isEmpty

/-- The element at an index; zero outside the shape. -/
def get (t : Tensor) (idx : Index) : Float := t.values[t.shape.ravel idx]?.getD 0

/-- The tensor has elements and all of them compare equal to `x`. -/
def allEqual (t : Tensor) (x : Float) : Bool := !t.values.isEmpty && t.values.all (· == x)

/-- The tensor has exactly one element, and it compares equal to `x`. -/
def isScalarValue (t : Tensor) (x : Float) : Bool := t.numel == 1 && t.allEqual x

/-- Applies a function to each element; the results are coerced into the given type. -/
def map (t : Tensor) (type : ElementType) (f : Float → Float) : Tensor where
  elementType := type
  shape := t.shape
  values := t.values.map fun x => type.coerce (f x)
  size_values := by simp [t.size_values]
  addressable := t.addressable
  holds := by simp +contextual

theorem get_ofIndex {t : ElementType} {s : Shape} {f : Index → Float} {hs : s.addressable}
    {idx : Index} (h : s.InBounds idx) : (ofIndex t s f hs).get idx = t.coerce (f idx) := by
  have hlt := Shape.ravel_lt h
  simp [get, ofIndex, hlt, Shape.unravel_ravel h]

@[simp] theorem desc_ofIndex (t : ElementType) (s : Shape) (f : Index → Float)
    (hs : s.addressable) : (ofIndex t s f hs).desc = ⟨t, .ofShape s⟩ := rfl

theorem isSome_vector? (t : ElementType) (xs : List Float) :
    (vector? t xs).isSome = Shape.addressable [xs.length] := by
  rw [vector?]
  split <;> simp_all

theorem desc_of_vector? {t : ElementType} {xs : List Float} {v : Tensor}
    (h : vector? t xs = some v) : v.desc = ⟨t, .ofShape [xs.length]⟩ := by
  obtain ⟨hs, h⟩ := Option.dite_none_right_eq_some.1 h
  obtain rfl := Option.some.inj h
  rfl

@[simp] theorem desc_map (t : Tensor) (type : ElementType) (f : Float → Float) :
    (t.map type f).desc = ⟨type, .ofShape t.shape⟩ := rfl

end Tensor

end OpGraph
