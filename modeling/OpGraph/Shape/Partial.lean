import OpGraph.Shape.Dim
import OpGraph.Shape.Static

/-!
# Partial shapes

What is known about the shape of a graph value: nothing at all, or the rank together with a
dimension for each axis.  `PartialShape.merge` combines two descriptions of the same value and
`PartialShape.broadcast` gives the shape of an elementwise result.
-/

namespace OpGraph

/-- A shape whose rank, or whose lengths, may be unknown. -/
inductive PartialShape where
  | unranked
  | ranked (dims : List Dim)
  deriving DecidableEq, Repr, Inhabited

namespace PartialShape

/-- The description of a fully known shape. -/
def ofShape (s : Shape) : PartialShape := ranked (s.map .static)

/-- The number of axes, if it is known. -/
def rank? : PartialShape → Option Nat
  | unranked => none
  | ranked dims => some dims.length

/-- The dimensions, if the rank is known. -/
def dims? : PartialShape → Option (List Dim)
  | unranked => none
  | ranked dims => some dims

/-- The dimension of one axis; there is none if the rank is unknown or too small. -/
def dim? (s : PartialShape) (axis : Nat) : Option Dim :=
  s.dims?.bind (·[axis]?)

/-- The rank is known. -/
def isRanked : PartialShape → Bool
  | unranked => false
  | ranked _ => true

/-- The rank and every length are known. -/
def isStatic : PartialShape → Bool
  | unranked => false
  | ranked dims => dims.all Dim.isStatic

/-- The rank or some length is not known. -/
def isDynamic (s : PartialShape) : Bool := !s.isStatic

/-- The shape, if the rank and every length are known. -/
def toShape? : PartialShape → Option Shape
  | unranked => none
  | ranked dims => dims.mapM Dim.length?

/-- The dimensions of a value that is known to have the given rank. -/
def dimsOfRank (s : PartialShape) (rank : Nat) : List Dim :=
  match s with
  | unranked => List.replicate rank .dynamic
  | ranked dims => dims

/-- The written form, such as `[2,?]`; an unknown rank is written `[...]`. -/
def text : PartialShape → String
  | unranked => "[...]"
  | ranked dims => "[" ++ ",".intercalate (dims.map Dim.text) ++ "]"

/-- Combines two lists of dimensions axis by axis; both have to have the same length. -/
def zipDims (f : Dim → Dim → Option Dim) : List Dim → List Dim → Option (List Dim)
  | [], [] => some []
  | a :: as, b :: bs => do
    let d ← f a b
    let ds ← zipDims f as bs
    return d :: ds
  | _, _ => none

/-- The common description of one shape: an unknown rank takes the other side, two known ranks have
to agree, and so does every pair of dimensions. -/
def merge : PartialShape → PartialShape → Option PartialShape
  | unranked, s => some s
  | ranked as, unranked => some (ranked as)
  | ranked as, ranked bs => (zipDims Dim.merge as bs).map ranked

/-- Adds axes of length one in front until there are `rank` axes. -/
def padTo (rank : Nat) (dims : List Dim) : List Dim :=
  List.replicate (rank - dims.length) (.static 1) ++ dims

/-- The shape of an elementwise result.  The operands are aligned at the last axis and missing axes
count as length one; if either rank is unknown, so is the rank of the result. -/
def broadcast : PartialShape → PartialShape → Option PartialShape
  | ranked as, ranked bs =>
    let rank := max as.length bs.length
    (zipDims Dim.broadcast (padTo rank as) (padTo rank bs)).map ranked
  | _, _ => some unranked

@[simp] theorem toShape?_ofShape (s : Shape) : (ofShape s).toShape? = some s := by
  simp only [ofShape, toShape?]
  induction s with
  | nil => rfl
  | cons n s ih => simp [List.mapM_cons, ih, Dim.length?]

theorem zipDims_comm {f : Dim → Dim → Option Dim} (hf : ∀ a b, f a b = f b a) :
    ∀ as bs, zipDims f as bs = zipDims f bs as
  | [], [] => rfl
  | [], _ :: _ => rfl
  | _ :: _, [] => rfl
  | a :: as, b :: bs => by simp [zipDims, hf a b, zipDims_comm hf as bs]

theorem merge_comm (a b : PartialShape) : merge a b = merge b a := by
  cases a <;> cases b <;> simp [merge, zipDims_comm Dim.merge_comm]

theorem broadcast_comm (a b : PartialShape) : broadcast a b = broadcast b a := by
  cases a <;> cases b <;> simp [broadcast]
  rename_i as bs
  rw [zipDims_comm Dim.broadcast_comm, Nat.max_comm]

end PartialShape

end OpGraph
