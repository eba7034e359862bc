import OpGraph.Tensor.Basic

/-!
# Elementwise combination

Two tensors are combined element by element after their shapes have been aligned at the last axis.
An operand is repeated along the axes that it lacks or on which it has length one, which
`Shape.project` says on indices.
-/

namespace OpGraph

/-- The element of an operand of shape `s` that takes part in the result element at `idx`: the
trailing positions, with position zero on the axes of length one. -/
def Shape.project (s : Shape) (idx : Index) : Index :=
  s.zipWith (fun n i => if n = 1 then 0 else i) (idx.drop (idx.length - s.length))

/-- The shape of the elementwise combination of two tensors, if their shapes broadcast and the
result is addressable. -/
def Shape.broadcast (a b : Shape) : Option Shape := do
  let merged ← PartialShape.broadcast (.ofShape a) (.ofShape b)
  let s ← merged.toShape?
  if s.addressable then some s else none

theorem Shape.addressable_of_broadcast {a b s : Shape} (h : a.broadcast b = some s) :
    s.addressable := by
  obtain ⟨merged, -, h⟩ := Option.bind_eq_some_iff.1 h
  obtain ⟨s', -, h⟩ := Option.bind_eq_some_iff.1 h
  obtain ⟨hs, h⟩ := Option.ite_none_right_eq_some.1 h
  exact Option.some.inj h ▸ hs

/-- Combines two tensors element by element; the results are coerced into the given type. -/
def Tensor.zipBroadcast (a b : Tensor) (t : ElementType) (f : Float → Float → Float) :
    Option Tensor :=
  match hs : a.shape.broadcast b.shape with
  | some s =>
    some (.ofIndex t s (fun idx => f (a.get (a.shape.project idx)) (b.get (b.shape.project idx)))
      (Shape.addressable_of_broadcast hs))
  | none => none

theorem Tensor.zipBroadcast_eq_some_iff_broadcast {a b c : Tensor} {t : ElementType}
    {f : Float → Float → Float} :
    a.zipBroadcast b t f = some c ↔ ∃ (s : Shape) (hs : a.shape.broadcast b.shape = some s),
      c = .ofIndex t s (fun idx => f (a.get (a.shape.project idx)) (b.get (b.shape.project idx)))
        (Shape.addressable_of_broadcast hs) := by
  unfold zipBroadcast
  constructor
  · intro h
    split at h
    next s hs => exact ⟨s, hs, (Option.some.inj h).symm⟩
    next => cases h
  · rintro ⟨s, hs, rfl⟩
    split
    next s' hs' =>
      obtain rfl := Option.some.inj (hs.symm.trans hs')
      rfl
    next hs' => cases hs.symm.trans hs'

end OpGraph
