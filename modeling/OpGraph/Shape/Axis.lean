/-!
# Axis numbers

Operations name an axis by a signed number; a negative one counts from the back.
-/

namespace OpGraph

/-- The position of an axis in a shape of the given rank, if it names one.  The rank is read as a
signed 64-bit number, so no axis fits a rank of `2 ^ 63` or more. -/
def normalizeAxis (axis : Int) (rank : Nat) : Option Nat :=
  let bound := Int.bmod rank UInt64.size
  let position := if axis < 0 then axis + bound else axis
  if 0 ≤ position ∧ position < bound then some position.toNat else none

theorem normalizeAxis_lt {axis : Int} {rank position : Nat}
    (h : normalizeAxis axis rank = some position) : position < rank := by
  obtain ⟨hbound, h⟩ := Option.ite_none_right_eq_some.1 h
  have hle : Int.bmod rank UInt64.size ≤ rank := by
    unfold Int.bmod
    simp only [UInt64.size]
    omega
  have hpos := Option.some.inj h
  omega

end OpGraph
