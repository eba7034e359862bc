/-!
# Static shapes

A shape with every length known is a list of lengths, outermost axis first.
-/

namespace OpGraph

/-- The lengths of all axes, outermost first. -/
abbrev Shape := List Nat

namespace Shape

/-- The number of elements; a shape without axes holds one. -/
def numel : Shape → Nat
  | [] => 1
  | n :: rest => n * numel rest

@[simp] theorem numel_nil : numel [] = 1 := rfl

@[simp] theorem numel_cons (n : Nat) (s : Shape) : numel (n :: s) = n * numel s := rfl

/-- The written form, such as `[2,3]`. -/
def text (s : Shape) : String :=
  "[" ++ ",".intercalate (s.map toString) ++ "]"

/-- The largest number of elements that a signed 64-bit offset can address. -/
def addressLimit : Nat := 9223372036854775807

/-- A shape is addressable when its nonzero lengths multiply to at most `addressLimit`.  Zero
lengths are left out, so an empty tensor can still have a shape that is too large. -/
def addressable (s : Shape) : Bool :=
  numel (s.filter (· ≠ 0)) ≤ addressLimit

/-- The shape of a part along the outermost axis is addressable if the whole shape is. -/
theorem addressable_of_cons {n : Nat} {s : Shape} (h : addressable (n :: s)) : addressable s := by
  refine decide_eq_true (Nat.le_trans ?_ (of_decide_eq_true h))
  rcases Nat.eq_zero_or_pos n with rfl | hn
  · exact Nat.le_refl _
  · rw [List.filter_cons_of_pos (by simpa using Nat.ne_of_gt hn), numel_cons]
    exact Nat.le_mul_of_pos_left _ hn

end Shape

end OpGraph
