import OpGraph.Tensor.Basic

/-!
# Joining and splitting along an axis

`Tensor.join` lays tensors end to end along one axis, and `Tensor.slices` takes a tensor apart along
its outermost axis.
-/

namespace OpGraph

/-- The shape of tensors of the given shapes laid end to end along `axis`, if all of them have the
rank of the first one and agree with it on every other axis. -/
def Shape.join (axis : Nat) : List Shape → Option Shape
  | [] => none
  | first :: rest =>
    if axis < first.length
        ∧ ∀ s ∈ rest, s.length = first.length ∧ s.eraseIdx axis = first.eraseIdx axis then
      some (first.set axis ((first :: rest).foldl (fun n s => n + s.getD axis 0) 0))
    else none

namespace Tensor

/-- The element at `idx` of tensors laid end to end along `axis`: the tensors in front of the one
that holds it take up the first positions. -/
def getJoined (axis : Nat) : List Tensor → Index → Float
  | [], _ => 0
  | t :: rest, idx =>
    let n := t.shape.getD axis 0
    let i := idx.getD axis 0
    if i < n then t.get idx else getJoined axis rest (idx.set axis (i - n))

/-- Tensors laid end to end along `axis`; the elements are coerced into the given type. -/
def join (type : ElementType) (axis : Nat) (ts : List Tensor) : Option Tensor := do
  let s ← Shape.join axis (ts.map (·.shape))
  if hs : s.addressable then some (.ofIndex type s (getJoined axis ts) hs) else none

theorem join_eq_some {type : ElementType} {axis : Nat} {ts : List Tensor} {t : Tensor} :
    join type axis ts = some t ↔ ∃ (s : Shape) (hs : s.addressable),
      Shape.join axis (ts.map (·.shape)) = some s ∧ t = ofIndex type s (getJoined axis ts) hs := by
  rw [join, Option.bind_eq_bind, Option.bind_eq_some_iff]
  refine exists_congr fun s => ?_
  rw [Option.dite_none_right_eq_some]
  constructor
  · rintro ⟨hjoin, hs, ht⟩
    exact ⟨hs, hjoin, (Option.some.inj ht).symm⟩
  · rintro ⟨hs, hjoin, rfl⟩
    exact ⟨hjoin, hs, rfl⟩

/-- The slices along the outermost axis, in order; a tensor without axes has none. -/
def slices (t : Tensor) : List Tensor :=
  match hs : t.shape with
  | [] => []
  | n :: rest => (List.range n).map fun k =>
      .ofIndex t.elementType rest (fun idx => t.get (k :: idx))
        (Shape.addressable_of_cons (hs ▸ t.addressable))

end Tensor

end OpGraph
