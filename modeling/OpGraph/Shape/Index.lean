import OpGraph.Shape.Static

/-!
# Row-major order

Elements of a tensor are named by one position for each axis and stored in row-major order, the last
axis running fastest.  `Shape.ravel` gives the offset of an element, `Shape.unravel` the positions of
an offset; `unravel_ravel` and `ravel_unravel` say that they are inverse to each other inside the
bounds.
-/

namespace OpGraph

/-- One position for each axis, outermost first. -/
abbrev Index := List Nat

namespace Shape

/-- An index lies in a shape when it has a position for each axis, below the length of the axis. -/
def InBounds : Shape → Index → Prop
  | [], [] => True
  | n :: s, i :: is => i < n ∧ InBounds s is
  | _, _ => False

instance decidableInBounds : (s : Shape) → (idx : Index) → Decidable (s.InBounds idx)
  | [], [] => isTrue trivial
  | [], _ :: _ => isFalse id
  | _ :: _, [] => isFalse id
  | n :: s, i :: is =>
    have := decidableInBounds s is
    inferInstanceAs (Decidable (i < n ∧ InBounds s is))

/-- The offset of an element in row-major order. -/
def ravel : Shape → Index → Nat
  | _ :: s, i :: is => i * numel s + ravel s is
  | _, _ => 0

/-- The positions of the element at an offset in row-major order. -/
def unravel : Shape → Nat → Index
  | [], _ => []
  | _ :: s, k => k / numel s :: unravel s (k % numel s)

theorem ravel_lt {s : Shape} {idx : Index} (h : InBounds s idx) : ravel s idx < numel s := by
  induction s generalizing idx with
  | nil =>
    cases idx with
    | nil => simp [ravel]
    | cons _ _ => exact h.elim
  | cons n s ih =>
    cases idx with
    | nil => exact h.elim
    | cons i is =>
      have hlt := ih h.2
      have hi : (i + 1) * numel s ≤ n * numel s := Nat.mul_le_mul_right _ h.1
      rw [Nat.add_mul, Nat.one_mul] at hi
      simp only [ravel, numel_cons]
      omega

theorem unravel_ravel {s : Shape} {idx : Index} (h : InBounds s idx) :
    unravel s (ravel s idx) = idx := by
  induction s generalizing idx with
  | nil =>
    cases idx with
    | nil => rfl
    | cons _ _ => exact h.elim
  | cons n s ih =>
    cases idx with
    | nil => exact h.elim
    | cons i is =>
      have hlt := ravel_lt h.2
      have hpos : 0 < numel s := by omega
      simp only [ravel, unravel]
      rw [Nat.mul_comm, Nat.mul_add_div hpos, Nat.div_eq_of_lt hlt, Nat.mul_add_mod,
        Nat.mod_eq_of_lt hlt, ih h.2, Nat.add_zero]

theorem inBounds_unravel {s : Shape} {k : Nat} (h : k < numel s) : InBounds s (unravel s k) := by
  induction s generalizing k with
  | nil => trivial
  | cons n s ih =>
    have hpos : 0 < numel s := by
      rcases Nat.eq_zero_or_pos (numel s) with h0 | h0
      · simp [h0] at h
      · exact h0
    exact ⟨(Nat.div_lt_iff_lt_mul hpos).2 h, ih (Nat.mod_lt _ hpos)⟩

theorem ravel_unravel {s : Shape} {k : Nat} (h : k < numel s) : ravel s (unravel s k) = k := by
  induction s generalizing k with
  | nil =>
    simp only [numel_nil] at h
    simp only [ravel]
    omega
  | cons n s ih =>
    have hpos : 0 < numel s := by
      rcases Nat.eq_zero_or_pos (numel s) with h0 | h0
      · simp [h0] at h
      · exact h0
    simp only [unravel, ravel]
    rw [ih (Nat.mod_lt _ hpos), Nat.mul_comm]
    exact Nat.div_add_mod _ _

end Shape

end OpGraph
